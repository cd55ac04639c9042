import Mathlib.Algebra.Order.Ring.Rat
import Mathlib.Logic.Function.Basic
import Mathlib.Tactic.Common

/-!
# The voices of the VST instrument (`vst.cpp`, `faust.h`, `voice.h`, `vstui.h`)

A note that is received waits in three parallel queues until `processReplacing` comes to its offset.
It is then given a voice: one of `m_freeVoices`, or the oldest one of `m_playingVoices`. A note off
puts the voices of the note into `m_releasedVoices`, and a released voice is freed at the end of a
`compute` where it was silent.

What the voices sound like is not told here: `Run` stands for the signal computation and the mixdown
of `compute`, which tell of each voice whether it was silent.
-/

namespace Faust.Vst

/-- `MAX_POLYPHONY`. -/
def maxPolyphony : ℕ := 10

/-- A `voice_node`: the note that a voice plays. -/
structure VoiceNode where
  note : ℕ
  voice : ℕ
deriving DecidableEq

/-! ## The controls of a voice -/

/-- A `vstUIObject`: the value of a control, and the bounds it is clipped to. Floats are exact here.
-/
structure UIObject where
  fMin : ℚ
  fMax : ℚ
  fZone : ℚ
deriving DecidableEq

/-- `SetValueNoNormalization`. -/
def UIObject.setValueNoNormalization (o : UIObject) (f : ℚ) : UIObject :=
  { o with fZone := if f < o.fMin then o.fMin else if o.fMax < f then o.fMax else f }

/-- The `vstUI` of a `Voice`: its controls, and the indices of those that it knows by their labels.
-/
structure Controls where
  fUITable : List UIObject
  freqIndex : ℤ
  gainIndex : ℤ
  gateIndex : ℤ
  prevFreqIndex : ℤ
  pitchbendIndex : ℤ

namespace Controls

variable (c : Controls)

/-- `setAny`. An index that is not one of the table is ignored. -/
def setAny (anyIndex : ℤ) (val : ℚ) : Controls :=
  if anyIndex < 0 then c
  else if c.fUITable.length ≤ anyIndex then c
  else { c with
    fUITable := c.fUITable.modify anyIndex.toNat fun o => o.setValueNoNormalization val }

/-- `setFreq`. -/
def setFreq (val : ℚ) : Controls := c.setAny c.freqIndex val

/-- `setGate`. -/
def setGate (val : ℚ) : Controls := c.setAny c.gateIndex val

/-- `setGain`. -/
def setGain (val : ℚ) : Controls := c.setAny c.gainIndex val

/-- `setPrevFreq`. -/
def setPrevFreq (val : ℚ) : Controls := c.setAny c.prevFreqIndex val

/-- `setPitchBend`. -/
def setPitchBend (val : ℚ) : Controls := c.setAny c.pitchbendIndex val

/-- The control of an index. -/
def object (index : ℤ) : Option UIObject :=
  if index < 0 then none else c.fUITable[index.toNat]?

/-- The value of the gate. -/
def gate : ℚ := ((c.object c.gateIndex).map UIObject.fZone).getD 0

/-- The constructor of `vstUI`. It does not initialise the last two indices: they are what the
memory holds. -/
def new (prevFreqIndex pitchbendIndex : ℤ) : Controls :=
  ⟨[], -1, -1, -1, prevFreqIndex, pitchbendIndex⟩

/-- `ckAnyMatch`, for the control that was added last: the index it gives. -/
def ckAnyMatch (label indexName : String) (index : ℤ) : ℤ :=
  if label = indexName then c.fUITable.length - 1 else index

/-- `ckAllMatches`. -/
def ckAllMatches (label : String) : Controls :=
  { c with
    gainIndex := c.ckAnyMatch label "gain" c.gainIndex
    gateIndex := c.ckAnyMatch label "gate" c.gateIndex
    freqIndex := c.ckAnyMatch label "freq" c.freqIndex
    prevFreqIndex := c.ckAnyMatch label "prevfreq" c.prevFreqIndex
    pitchbendIndex := c.ckAnyMatch label "pitchbend" c.pitchbendIndex }

/-- `fUITable.push_back`. -/
def push (o : UIObject) : Controls := { c with fUITable := c.fUITable ++ [o] }

end Controls

/-- What the interface of a signal processor adds to a `vstUI`. The sliders and the number entries
are treated alike, and so are the toggle and the check buttons. -/
inductive Widget
  | button (label : String)
  | checkButton (label : String)
  | slider (label : String) (init min max : ℚ)

/-- `addButton`, `addCheckButton`, `addToggleButton`, and `addVerticalSlider`,
`addHorizontalSlider` and `addNumEntry`. -/
def Controls.add (c : Controls) : Widget → Controls
  | .button label =>
    let c := c.push ⟨0, 1, 0⟩
    { c with gateIndex := c.ckAnyMatch label "gate" c.gateIndex }
  | .checkButton _ => c.push ⟨0, 1, 0⟩
  | .slider label init min max => (c.push ⟨min, max, init⟩).ckAllMatches label

/-- The constructor of `Voice`: the interface of the processor is built. -/
def Controls.build (widgets : List Widget) (prevFreqIndex pitchbendIndex : ℤ) : Controls :=
  widgets.foldl Controls.add (.new prevFreqIndex pitchbendIndex)

/-! ## The voices -/

/-- The values of the controls for a note, a velocity and a position of the wheel. -/
structure Tuning where
  midiToFreq : ℕ → ℚ
  gain : ℕ → ℚ
  bend : ℕ → ℚ

/-- An event that was applied, a note on with the voice it was given. -/
inductive Applied
  | noteOn (note velocity voice : ℕ)
  | noteOff (note : ℕ)
  | allNotesOff
deriving DecidableEq

/-- The voices and their containers. `log` is not in the code: it records what was applied. -/
structure Voices where
  controls : ℕ → Controls
  playingVoices : List VoiceNode
  releasedVoices : List ℕ
  freeVoices : List ℕ
  log : List Applied

/-- Where `compute` writes: to the pointers of the caller, or to copies of them, moved on. -/
inductive Outputs
  | caller
  | shifted (offset : ℤ)

/-- The signals and the mixdown of `compute`: the outputs, the number of frames, the voices. What it
returns tells which voices were silent. -/
abbrev Run (W : Type*) := Outputs → ℤ → Voices → W → Option (W × (ℕ → Bool))

namespace Voices

variable (t : Tuning) (v : Voices)

/-- Set controls of one voice. -/
def setControls (x : ℕ) (f : Controls → Controls) : Voices :=
  { v with controls := Function.update v.controls x (f (v.controls x)) }

/-! ## `compute` -/

/-- A voice of the loop of `compute` is freed, if it is silent and released. What is carried: the
released voices, the free voices and the nodes to remove. -/
def freeStep (silent : ℕ → Bool) (s : List ℕ × List ℕ × List VoiceNode) (n : VoiceNode) :
    List ℕ × List ℕ × List VoiceNode :=
  if silent n.voice ∧ n.voice ∈ s.1 then
    (s.1.erase n.voice, s.2.1 ++ [n.voice], s.2.2 ++ [n])
  else s

/-- The loop over `removed`. -/
def remove (n : VoiceNode) : Voices :=
  { v.setControls n.voice (·.setPrevFreq (t.midiToFreq n.note)) with
    playingVoices := v.playingVoices.erase n }

/-- The voices after the signals are computed. -/
def freeSilent (silent : ℕ → Bool) : Voices :=
  let s := v.playingVoices.foldl (freeStep silent) (v.releasedVoices, v.freeVoices, [])
  s.2.2.foldl (remove t) { v with releasedVoices := s.1, freeVoices := s.2.1 }

/-- `compute`. -/
def compute {W : Type*} (run : Run W) (out : Outputs) (count : ℤ) (w : W) :
    Option (Voices × W) :=
  match run out count v w with
  | none => none
  | some (w, silent) => some (v.freeSilent t silent, w)

/-! ## Events -/

/-- The voice that a note on is given. Without a free voice the first one that plays is taken. -/
def reserve (note : ℕ) : Option (ℕ × Voices) :=
  match v.freeVoices with
  | voice :: free =>
    some (voice, { v with
      freeVoices := free
      playingVoices := v.playingVoices ++ [⟨note, voice⟩] })
  | [] =>
    match v.playingVoices with
    | [] => none
    | front :: playing =>
      some (front.voice, { v.setControls front.voice (·.setPrevFreq (t.midiToFreq front.note)) with
        playingVoices := playing ++ [⟨note, front.voice⟩] })

/-- The note starts. -/
def noteStart (voice note velocity : ℕ) : Voices :=
  { v.setControls voice fun c =>
      ((c.setFreq (t.midiToFreq note)).setGain (t.gain velocity)).setGate 1 with
    log := v.log ++ [.noteOn note velocity voice] }

/-- The loop of a note off: the released voices, `currentVoice` and `voiceFound`. -/
def releaseStep (note : ℕ) (s : List ℕ × Option ℕ × Bool) (n : VoiceNode) :
    List ℕ × Option ℕ × Bool :=
  if note = n.note then
    if n.voice ∈ s.1 then (s.1, some n.voice, s.2.2)
    else (s.1 ++ [n.voice], some n.voice, true)
  else s

/-- The voices of a note are released. -/
def release (note : ℕ) : List ℕ × Option ℕ × Bool :=
  v.playingVoices.foldl (releaseStep note) (v.releasedVoices, none, false)

/-- The note ends. -/
def noteEnd (note : ℕ) (found : Option ℕ × Bool) : Voices :=
  let v' := match found with
    | (some voice, true) => v.setControls voice (·.setGate 0)
    | _ => v
  { v' with log := v.log ++ [.noteOff note] }

/-- `allNotesOff`. -/
def allNotesOff : Voices :=
  { v with
    controls := fun x =>
      if x < maxPolyphony then (v.controls x).setGate 0 else v.controls x
    releasedVoices := v.playingVoices.foldl
      (fun released n => if n.voice ∈ released then released else released ++ [n.voice])
      v.releasedVoices
    log := v.log ++ [.allNotesOff] }

/-- `bendPitch`. -/
def bendPitch (bend : ℚ) : Voices :=
  { v with controls := fun x =>
      if x < maxPolyphony then (v.controls x).setPitchBend bend else v.controls x }

/-- One event of the queues, at the offset `delta`; the one before was at `previousDelta`. -/
def playEvent {W : Type*} (run : Run W) (previousDelta delta : ℤ) (note velocity : ℕ) (w : W) :
    Option (Voices × W) :=
  if 0 < velocity then
    match v.reserve t note with
    | none => none
    | some (voice, v) =>
      match v.compute t run (.shifted previousDelta) (delta - previousDelta) w with
      | none => none
      | some (v, w) => some (v.noteStart t voice note velocity, w)
  else
    match { v with releasedVoices := (v.release note).1 }.compute t run (.shifted previousDelta)
        (delta - previousDelta) w with
    | none => none
    | some (v', w) => some (v'.noteEnd note (v.release note).2, w)

end Voices

/-! ## Calls of the host -/

/-- The notes that wait. -/
structure Queues where
  currentNotes : List ℕ
  currentVelocities : List ℕ
  currentDeltas : List ℤ

/-- The instrument. -/
structure Synth where
  queues : Queues
  voices : Voices

variable {W : Type*} (t : Tuning) (run : Run W)

/-- The loop of `synthProcessReplacing` and what follows it. After a turn `currentDelta` is
`previousDelta`. To read the front of an empty queue is not defined. -/
def playLoop (sampleFrames : ℤ) : List ℕ → List ℕ → List ℤ → ℤ → Voices → W →
    Option (Synth × W)
  | [], velocities, deltas, previousDelta, v, w =>
    match v.compute t run (.shifted previousDelta) (sampleFrames - previousDelta) w with
    | none => none
    | some (v, w) => some (⟨⟨[], velocities, deltas⟩, v⟩, w)
  | _ :: _, _, [], _, _, _ => none
  | note :: notes, velocities, delta :: deltas, previousDelta, v, w =>
    if sampleFrames ≤ delta then
      match v.compute t run .caller sampleFrames w with
      | none => none
      | some (v, w) =>
        some (⟨⟨note :: notes, velocities, (delta :: deltas).map (· - sampleFrames)⟩, v⟩, w)
    else
      match velocities with
      | [] => none
      | velocity :: velocities =>
        match v.playEvent t run previousDelta delta note velocity w with
        | none => none
        | some (v, w) => playLoop sampleFrames notes velocities deltas delta v w

namespace Synth

variable (s : Synth)

/-- `synthProcessReplacing`. -/
def synthProcessReplacing (sampleFrames : ℤ) (w : W) : Option (Synth × W) :=
  if s.queues.currentNotes = [] then
    match s.voices.compute t run .caller sampleFrames w with
    | none => none
    | some (v, w) => some ({ s with voices := v }, w)
  else
    playLoop t run sampleFrames s.queues.currentNotes s.queues.currentVelocities
      s.queues.currentDeltas 0 s.voices w

/-- A note at the end of the queues: `noteOn`, and `noteOff` for the velocity zero. -/
def noteOn (note velocity : ℕ) (delta : ℤ) : Synth :=
  { s with queues := ⟨s.queues.currentNotes ++ [note], s.queues.currentVelocities ++ [velocity],
      s.queues.currentDeltas ++ [delta]⟩ }

/-- `noteOff`. -/
def noteOff (note : ℕ) (delta : ℤ) : Synth := s.noteOn note 0 delta

end Synth

/-- An event of the host: whether its type is `kVstMidiType`, and its first three bytes. -/
structure MidiEvent where
  isMidi : Bool
  status : ℕ
  data1 : ℕ
  data2 : ℕ
  deltaFrames : ℤ

/-- One turn of `processEvents`. -/
def Synth.processEvent (s : Synth) (e : MidiEvent) : Synth :=
  if e.isMidi then
    let status := e.status &&& 0xf0
    let note := e.data1 &&& 0x7f
    if status = 0x90 then
      let velocity := e.data2 &&& 0x7f
      if 0 < velocity then s.noteOn note velocity e.deltaFrames
      else s.noteOff note e.deltaFrames
    else if status = 0x80 then s.noteOff note e.deltaFrames
    else if status = 0xB0 then
      if e.data1 = 0x7e ∨ e.data1 = 0x7b then { s with voices := s.voices.allNotesOff } else s
    else if status = 0xE0 then
      { s with voices := s.voices.bendPitch (t.bend (e.data1 ||| e.data2 <<< 7)) }
    else s
  else s

/-- A call of the host. -/
inductive Call
  | processEvents (events : List MidiEvent)
  | processReplacing (sampleFrames : ℤ)

/-- One call. -/
def Call.perform (c : Call) (s : Synth) (w : W) : Option (Synth × W) :=
  match c with
  | .processEvents events => some (events.foldl (Synth.processEvent t) s, w)
  | .processReplacing sampleFrames => s.synthProcessReplacing t run sampleFrames w

/-- The calls one after the other. -/
def runCalls : List Call → Synth → W → Option (Synth × W)
  | [], s, w => some (s, w)
  | c :: calls, s, w =>
    match c.perform t run s w with
    | none => none
    | some (s, w) => runCalls calls s w

/-- The voices that the constructor makes, with these controls: all of them are free. -/
def Voices.new (controls : ℕ → Controls) : Voices :=
  ⟨controls, [], [], List.range maxPolyphony, []⟩

/-- A new instrument. -/
def Synth.new (controls : ℕ → Controls) : Synth := ⟨⟨[], [], []⟩, .new controls⟩

end Faust.Vst

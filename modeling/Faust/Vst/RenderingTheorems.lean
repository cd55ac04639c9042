import Mathlib.Data.List.Lemmas
import Faust.Vst.Rendering

/-!
# What one `synthProcessReplacing` renders

The chunk is cut into the windows between the offsets of the events, and `compute` is called on each
of them. The calls, the frames they write and the events that were applied before them are read off
the record `trace`. A chunk is rendered as it should be exactly when no event of a later chunk
follows one that cut the chunk, and when the windows stay inside of the buffers and of the pointers.
-/

namespace Faust.Vst

/-- An event that waits. -/
structure NoteEvent where
  note : ℕ
  velocity : ℕ
  delta : ℤ

/-- The three queues of some events. -/
def queuesOf (queue : List NoteEvent) : Queues :=
  ⟨queue.map NoteEvent.note, queue.map NoteEvent.velocity, queue.map NoteEvent.delta⟩

/-- The notes that were applied, with their velocities; that of a note off is zero. -/
def eventsOf : List Applied → List (ℕ × ℕ)
  | [] => []
  | .noteOn note velocity _ :: log => (note, velocity) :: eventsOf log
  | .noteOff note :: log => (note, 0) :: eventsOf log
  | .allNotesOff :: log => eventsOf log

theorem eventsOf_append (log log' : List Applied) :
    eventsOf (log ++ log') = eventsOf log ++ eventsOf log' := by
  induction log with
  | nil => rfl
  | cons a log ih => cases a <;> simp [eventsOf, ih]

/-- The events of the queue up to a frame. -/
def upTo (queue : List NoteEvent) (t : ℤ) : List (ℕ × ℕ) :=
  (queue.filter fun e => e.delta ≤ t).map fun e => (e.note, e.velocity)

variable {S α : Type*}

/-- There is a temporary buffer for each output. Those that `compute` makes longer, the first
`MAX_POLYPHONY` of them, have `tempOutputSize` frames at least. -/
structure Allocated (dsp : Dsp S α) (b : Buffers S α) : Prop where
  length : b.tempOutputs.length = dsp.getNumOutputs
  size : ∀ i < maxPolyphony, i < dsp.getNumOutputs →
    b.tempOutputSize ≤ (b.tempOutputs[i]?).getD 0

/-- So many frames fit in the temporary buffers: if they have to be made longer, there are
`MAX_POLYPHONY` of them, and if a voice plays, the others are long enough. -/
structure Fits (dsp : Dsp S α) (b : Buffers S α) (plays : Prop) (count : ℕ) : Prop where
  grow : b.tempOutputSize < count → maxPolyphony ≤ dsp.getNumOutputs
  fill : plays → ∀ i < dsp.getNumOutputs, maxPolyphony ≤ i → count ≤ (b.tempOutputs[i]?).getD 0

/-- The states of a processor through some calls of `compute`. -/
def samples (dsp : Dsp S α) (x : ℕ) (trace : List (Rendered S)) (s : S) : S :=
  trace.foldl (fun s r => (dsp.next (r.voices.controls x))^[r.count] s) s

/-- A voice plays in a call of `compute`. -/
def Rendered.Plays (r : Rendered S) (x : ℕ) : Prop :=
  x ∈ r.voices.playingVoices.map VoiceNode.voice

/-! ## The windows -/

/-- The frames of a window. -/
def windowFrames (w : Outputs × ℤ) : List ℕ := (List.range w.2.toNat).map (w.1.start.toNat + ·)

/-! ## The buffers -/

section
variable {dsp : Dsp S α} {b b₁ : Buffers S α} {count : ℕ}

/-- When they fit, the buffers are as long as they have to be. -/
theorem Allocated.grow (h : Allocated dsp b) {plays : Prop} (hfits : Fits dsp b plays count) :
    ∃ b₁, dsp.grow b count = some b₁ ∧ Allocated dsp b₁ ∧ (plays → dsp.Fills b₁ count) := by
  by_cases hle : count ≤ b.tempOutputSize
  · refine ⟨b, by rw [Dsp.grow, if_neg (by omega)], h, fun hplays i hi => ?_⟩
    by_cases hlow : i < maxPolyphony
    · exact hle.trans (h.size i hlow hi)
    · exact hfits.fill hplays i hi (by omega)
  · have houts := hfits.grow (by omega)
    have hlen := h.length
    have hlow : ∀ i < maxPolyphony, ((List.replicate maxPolyphony (count * dsp.getNumOutputs) ++
        b.tempOutputs.drop maxPolyphony)[i]?).getD 0 = count * dsp.getNumOutputs := by
      intro i hi
      rw [List.getElem?_append_left (by simpa using hi), List.getElem?_replicate_of_lt hi]
      rfl
    have hhigh : ∀ i, maxPolyphony ≤ i → (List.replicate maxPolyphony (count * dsp.getNumOutputs) ++
        b.tempOutputs.drop maxPolyphony)[i]? = b.tempOutputs[i]? := by
      intro i hi
      rw [List.getElem?_append_right (by simpa using hi), List.length_replicate,
        List.getElem?_drop, Nat.add_sub_cancel' hi]
    have hlong : count ≤ count * dsp.getNumOutputs := by
      have hpos : 0 < maxPolyphony := by decide
      exact Nat.le_mul_of_pos_right _ (by omega)
    refine ⟨_, by rw [Dsp.grow, if_pos (by omega), if_pos (by omega)], ⟨?_, fun i hi _ => ?_⟩,
      fun hplays i hi => ?_⟩
    · rw [List.length_append, List.length_replicate, List.length_drop]
      omega
    · dsimp only
      rw [hlow i hi]
      exact hlong
    · dsimp only
      by_cases hi' : i < maxPolyphony
      · rw [hlow i hi']
        exact hlong
      · rw [hhigh i (by omega)]
        exact hfits.fill hplays i hi (by omega)

/-- Growing keeps what was allocated. -/
theorem Allocated.grown (h : Allocated dsp b) (hgrow : dsp.grow b count = some b₁) :
    Allocated dsp b₁ ∧ ∀ plays : Prop, (plays → dsp.Fills b₁ count) → Fits dsp b plays count := by
  have hfits : Fits dsp b False count := by
    refine ⟨fun hlt => ?_, False.elim⟩
    rw [Dsp.grow, if_pos hlt] at hgrow
    split at hgrow
    · next hlen => exact h.length ▸ hlen
    · cases hgrow
  obtain ⟨b₂, hgrow', hok, -⟩ := h.grow hfits
  cases hgrow.symm.trans hgrow'
  refine ⟨hok, fun plays hfills => ⟨hfits.grow, fun hplays i hi hhigh => ?_⟩⟩
  have hfill := hfills hplays i hi
  obtain ⟨-, -, -, -, ⟨-, -, -, htemp⟩ | ⟨-, rfl⟩⟩ := Dsp.grow_eq_some hgrow
  · rwa [htemp, List.getElem?_append_right (by simpa using hhigh), List.length_replicate,
      List.getElem?_drop, Nat.add_sub_cancel' hhigh] at hfill
  · exact hfill

end

/-! ## What was called -/

/-- What is known of the calls of `compute` when they return. -/
structure Called (dsp : Dsp S α) (ws : List (Outputs × ℤ)) (b b' : Buffers S α) : Prop where
  trace : b'.trace.flatMap Rendered.frames =
    b.trace.flatMap Rendered.frames ++ ws.flatMap windowFrames
  frames : b'.frames = b.frames
  writable : ∀ w ∈ ws, dsp.Writable w.1 w.2.toNat b.frames

theorem Called.append {dsp : Dsp S α} {ws ws' : List (Outputs × ℤ)} {b b' b'' : Buffers S α}
    (h : Called dsp ws b b') (h' : Called dsp ws' b' b'') : Called dsp (ws ++ ws') b b'' := by
  refine ⟨?_, h'.frames.trans h.frames, fun w hw => ?_⟩
  · rw [h'.trace, h.trace, List.flatMap_append, List.append_assoc]
  · rcases List.mem_append.mp hw with hw | hw
    · exact h.writable w hw
    · have hwritable := h'.writable w hw
      rwa [h.frames] at hwritable

section
variable [Add α] [Zero α] {dsp : Dsp S α} {t : Tuning} {b b' : Buffers S α}
  {v v' : Voices} {out : Outputs} {sampleFrames : ℤ}

theorem compute_eq_some {W : Type*} {run : Run W} {w w' : W}
    (h : v.compute t run out sampleFrames w = some (v', w')) :
    ∃ silent, run out sampleFrames v w = some (w', silent) ∧ v' = v.freeSilent t silent := by
  rw [Voices.compute] at h
  split at h
  · cases h
  · next w₁ silent hrun =>
    cases h
    exact ⟨silent, hrun, rfl⟩

end

/-! ## The condition -/

/-- What the offsets need. -/
structure Renderable (numOutputs n : ℕ) (deltas : List ℤ) : Prop where
  /-- No event of a later chunk follows one after the start of this one. -/
  later : (∃ d ∈ deltas, 0 < d ∧ d < n) → ∀ d ∈ deltas, d < n
  /-- More outputs than pointers are written through those of the caller only. -/
  outs : maxNouts < numOutputs → (∃ d ∈ deltas, d < n) → ∃ d ∈ deltas, (n : ℤ) ≤ d

section
variable {n previousDelta : ℤ} {deltas : List ℤ}

end

/-- All samples of the voice in a call were silent. -/
def Rendered.Silent (dsp : Dsp S α) (r : Rendered S) (x : ℕ) : Prop :=
  ∀ i < dsp.getNumOutputs, ∀ frame < r.count,
    ¬ dsp.audible (dsp.block (r.voices.controls x) (r.dsps x) i frame) = true

/-- The voices that a call frees (those that were silent and released) were released before by an
event that was applied. -/
def Rendered.FreesReleased (dsp : Dsp S α) (r : Rendered S) (released : List ℕ) : Prop :=
  ∀ m ∈ r.voices.playingVoices, r.Silent dsp m.voice → m.voice ∈ r.voices.releasedVoices →
    m.voice ∈ released

/-- The voice whose note a note off ends: the last one of the note, unless all are released. -/
def ending (released : List ℕ) (note : ℕ) (v : Voices) : Option ℕ :=
  if ∃ m ∈ v.playingVoices, m.note = note ∧ m.voice ∉ released then lastOf note v.playingVoices
  else none

/-- An event is applied between two calls of `compute`: a note on sets the frequency, the gain and
the gate of a voice that plays its note, a note off closes the gate of the voice it ends, and no
other control is set, except for previous frequencies. -/
structure EventApplied (t : Tuning) (released : List ℕ) (e : NoteEvent) (v v' : Voices) :
    Prop where
  noteOn : 0 < e.velocity → ∃ x, ⟨e.note, x⟩ ∈ v.playingVoices ∧ ∀ y,
    Controls.Kept (if y = x then
      (((v.controls y).setFreq (t.midiToFreq e.note)).setGain (t.gain e.velocity)).setGate 1
      else v.controls y) (v'.controls y)
  noteOff : e.velocity = 0 → ∀ y,
    Controls.Kept (if some y = ending released e.note v then (v.controls y).setGate 0
      else v.controls y) (v'.controls y)

/-- The voices at the next call, or at the end. -/
def nextVoices (rs : List (Rendered S)) (vEnd : Voices) : Voices :=
  match rs with
  | [] => vEnd
  | r :: _ => r.voices

/-- Between the calls of `compute` the events are applied one after the other. -/
def Chain (dsp : Dsp S α) (t : Tuning) : List ℕ → List NoteEvent → List (Rendered S) → Voices → Prop
  | released, [], [r], vEnd =>
    r.FreesReleased dsp released ∧ ∀ y, (r.voices.controls y).Kept (vEnd.controls y)
  | released, e :: queue, r :: rs, vEnd =>
    r.FreesReleased dsp released ∧ EventApplied t released e r.voices (nextVoices rs vEnd) ∧
      Chain dsp t r.voices.releasedVoices queue rs vEnd
  | _, _, _, _ => False

/-- The voices that a note off releases are heard in the window before it. -/
def Sounds (dsp : Dsp S α) (v : Voices) (b : Buffers S α) (note count : ℕ) : Prop :=
  ∀ m ∈ v.playingVoices, m.note = note → m.voice ∉ v.releasedVoices →
    ∃ i < dsp.getNumOutputs, ∃ frame < count,
      dsp.audible (dsp.block (v.controls m.voice) (b.dsps m.voice) i frame) = true

/-- What the windows need, each in the state where it is rendered: they fit in the buffers, and the
voices that a note off releases are heard before it. -/
def LoopRenders [Add α] [Zero α] (dsp : Dsp S α) (t : Tuning) (n : ℕ) :
    List NoteEvent → ℤ → Voices → Buffers S α → Prop
  | [], previousDelta, v, b => Fits dsp b (v.playingVoices ≠ []) ((n : ℤ) - previousDelta).toNat
  | e :: queue, previousDelta, v, b =>
    if (n : ℤ) ≤ e.delta then Fits dsp b (v.playingVoices ≠ []) n
    else
      Fits dsp b (0 < e.velocity ∨ v.playingVoices ≠ []) (e.delta - previousDelta).toNat ∧
      (e.velocity = 0 → Sounds dsp v b e.note (e.delta - previousDelta).toNat) ∧
      ∀ v' b', v.playEvent t dsp.render previousDelta e.delta e.note e.velocity b = some (v', b') →
        LoopRenders dsp t n queue e.delta v' b'

section
variable [Add α] [Zero α] {dsp : Dsp S α} {t : Tuning} {b b' : Buffers S α} {v v' : Voices}
  {out : Outputs} {released : List ℕ} {count : ℤ}

/-- What a call of `compute` leaves, in the words of its record. -/
structure ComputeStep (dsp : Dsp S α) (v v' : Voices) (b b' : Buffers S α) (r : Rendered S) :
    Prop where
  trace : b'.trace = b.trace ++ [r]
  allocated : Allocated dsp b'
  fits : Fits dsp b (v.playingVoices ≠ []) r.count
  freed : ∃ silent, Freed silent v v'

theorem compute_step (hp : Partitioned v) (hal : Allocated dsp b)
    (h : v.compute t dsp.render out count b = some (v', b')) :
    ComputeStep dsp v v' b b' ⟨out.start.toNat, count.toNat, v, b.dsps⟩ := by
  obtain ⟨silent, hrun, rfl⟩ := compute_eq_some h
  obtain ⟨-, b₁, hgrow, hspec⟩ := Dsp.render_eq_some hp hrun
  obtain ⟨⟨b₁', hgrow', hfills⟩, -⟩ := Dsp.render_voices hp hrun
  cases hgrow.symm.trans hgrow'
  obtain ⟨hal₁, hfits⟩ := hal.grown hgrow
  refine ⟨hspec.trace, ⟨?_, ?_⟩, hfits _ hfills, silent, hp.freeSilent silent⟩
  · rw [hspec.tempOutputs]
    exact hal₁.length
  · rw [hspec.tempOutputs, hspec.tempOutputSize]
    exact hal₁.size

end

/-! ## What is rendered -/

/-- The chunk was rendered up to a frame. `log` and `dsps` are what there was at its start. -/
structure Progress [Add α] [Zero α] (dsp : Dsp S α) (log : List (ℕ × ℕ)) (dsps : ℕ → S)
    (queue : List NoteEvent) (p : ℕ) (b : Buffers S α) : Prop where
  /-- Every frame was written once. -/
  frames : b.trace.flatMap Rendered.frames = List.range p
  /-- A frame holds the mix of the voices at its instant. -/
  mix : ∀ r ∈ b.trace, ∀ j < r.count, ∀ i < dsp.getNumOutputs,
    b.outputs i (r.start + j) = dsp.mixAt r.voices r.dsps j i
  /-- A voice that played all the time made so many samples. -/
  advanced : ∀ x, (∀ r ∈ b.trace, r.Plays x) → b.dsps x = samples dsp x b.trace (dsps x) ∧
    (b.trace.map Rendered.count).sum = p
  /-- At each frame the events up to it were applied, and no others. -/
  applied : ∀ r ∈ b.trace, ∀ j < r.count,
    eventsOf r.voices.log = log ++ upTo queue (r.start + j : ℕ)

section
variable [Add α] [Zero α] {dsp : Dsp S α} {t : Tuning} {b b₁ b' : Buffers S α}
  {v v' : Voices} {out : Outputs} {log : List (ℕ × ℕ)} {dsps : ℕ → S} {queue : List NoteEvent}
  {p count : ℕ}

/-- One more call of `compute`. -/
theorem Progress.call (h : Progress dsp log dsps queue p b)
    (hspec : dsp.RenderSpec out count v b b₁ b') (hstart : out.start = p)
    (happlied : ∀ j < count, eventsOf v.log = log ++ upTo queue (p + j : ℕ)) :
    Progress dsp log dsps queue (p + count) b' := by
  have htoNat : out.start.toNat = p := by omega
  have htrace : b'.trace = b.trace ++ [⟨p, count, v, b.dsps⟩] := by rw [hspec.trace, htoNat]
  have hcases : ∀ r ∈ b'.trace, r ∈ b.trace ∨ r = ⟨p, count, v, b.dsps⟩ := by
    intro r hr
    rw [htrace] at hr
    rcases List.mem_append.mp hr with hr | hr
    · exact Or.inl hr
    · exact Or.inr (List.mem_singleton.mp hr)
  refine ⟨?_, fun r hr j hj i hi => ?_, fun x hx => ?_, fun r hr j hj => ?_⟩
  · rw [htrace, List.flatMap_append, h.frames, List.range_add]
    simp [Rendered.frames]
  · rcases hcases r hr with hr | rfl
    · -- a frame of an earlier call is not written again
      have hmem : r.start + j ∈ b.trace.flatMap Rendered.frames :=
        List.mem_flatMap.mpr ⟨r, hr, List.mem_map.mpr ⟨j, List.mem_range.mpr hj, rfl⟩⟩
      rw [h.frames, List.mem_range] at hmem
      rw [hspec.kept i _ (Or.inl (by omega))]
      exact h.mix r hr j hj i hi
    · exact hspec.outputs i hi j hj _ (by dsimp only; omega)
  · obtain ⟨hdsps, hsum⟩ := h.advanced x fun r hr => hx r (by
      rw [htrace]
      exact List.mem_append_left _ hr)
    have hplays : x ∈ v.playingVoices.map VoiceNode.voice := hx ⟨p, count, v, b.dsps⟩ (by
      rw [htrace]
      exact List.mem_append_right _ List.mem_cons_self)
    constructor
    · rw [hspec.dsps x, Dsp.advance, if_pos hplays, htrace, samples, List.foldl_append, hdsps]
      rfl
    · rw [htrace, List.map_append, List.sum_append, hsum]
      rfl
  · rcases hcases r hr with hr | rfl
    · exact h.applied r hr j hj
    · exact happlied j hj

/-- What a call of `compute` returns for the voices `v`, of which some were silent. -/
structure Computed (dsp : Dsp S α) (out : Outputs) (count : ℕ) (v : Voices)
    (b b' : Buffers S α) : Prop where
  spec : ∃ b₁, dsp.RenderSpec out count v b b₁ b'
  allocated : Allocated dsp b'
  frames : b'.frames = b.frames

theorem compute_returns (hp : Partitioned v) {sampleFrames : ℤ}
    (hw : dsp.Writable out sampleFrames.toNat b.frames) (hal : Allocated dsp b)
    (hfits : Fits dsp b (v.playingVoices ≠ []) sampleFrames.toNat) :
    ∃ v' b', v.compute t dsp.render out sampleFrames b = some (v', b') ∧
      Computed dsp out sampleFrames.toNat v b b' ∧ Partitioned v' ∧ v'.log = v.log := by
  obtain ⟨b₁, hgrow, -, hfills⟩ := hal.grow hfits
  obtain ⟨⟨b', silent⟩, hrun⟩ := Dsp.render_isSome hw hgrow hfills
  obtain ⟨-, b₁', hgrow', hspec⟩ := Dsp.render_eq_some hp hrun
  have hf := hp.freeSilent (t := t) silent
  have hcompute : v.compute t dsp.render out sampleFrames b = some (v.freeSilent t silent, b') := by
    simp only [Voices.compute, hrun]
  exact ⟨v.freeSilent t silent, b', hcompute,
    ⟨⟨b₁', hspec⟩, (compute_step hp hal hcompute).allocated, hspec.frames⟩, hp.freed hf, hf.log⟩

theorem playEvent_returns (hp : Partitioned v) {previousDelta delta : ℤ} (note velocity : ℕ)
    (hw : dsp.Writable (.shifted previousDelta) (delta - previousDelta).toNat b.frames)
    (hal : Allocated dsp b)
    (hfits : Fits dsp b (0 < velocity ∨ v.playingVoices ≠ []) (delta - previousDelta).toNat) :
    ∃ v₁ v' b', v.playEvent t dsp.render previousDelta delta note velocity b = some (v', b') ∧
      Computed dsp (.shifted previousDelta) (delta - previousDelta).toNat v₁ b b' ∧
      v₁.log = v.log ∧ eventsOf v'.log = eventsOf v.log ++ [(note, velocity)] := by
  by_cases hvelocity : 0 < velocity
  · obtain ⟨x, v₁, hreserve, hr, -⟩ := hp.reserve (t := t) note
    obtain ⟨v₂, b', hcompute, hspec, -, hlog⟩ :=
      compute_returns (t := t) hr.partitioned hw hal
        ⟨hfits.grow, fun _ => hfits.fill (Or.inl hvelocity)⟩
    refine ⟨v₁, v₂.noteStart t x note velocity, b', ?_, hspec, hr.log, ?_⟩
    · simp only [Voices.playEvent, if_pos hvelocity, hreserve, hcompute]
    · show eventsOf (v₂.log ++ [.noteOn note velocity x]) = _
      rw [eventsOf_append, hlog, hr.log]
      rfl
  · obtain ⟨v₂, b', hcompute, hspec, -, hlog⟩ :=
      compute_returns (t := t) (hp.release note) hw hal
        ⟨hfits.grow, fun hplays => hfits.fill (Or.inr hplays)⟩
    refine ⟨{ v with releasedVoices := (v.release note).1 }, v₂.noteEnd note (v.release note).2, b',
      ?_, hspec, rfl, ?_⟩
    · simp only [Voices.playEvent, if_neg hvelocity, hcompute]
    · show eventsOf (v₂.log ++ [.noteOff note]) = _
      have hzero : velocity = 0 := by omega
      rw [eventsOf_append, hlog, hzero]
      rfl

end

/-- What the loop needs of what is left of the queue. -/
structure Remaining (dsp : Dsp S α) (b : Buffers S α) (n previousDelta : ℤ)
    (deltas : List ℤ) : Prop where
  sorted : (previousDelta :: deltas).Pairwise (· ≤ ·)
  start : 0 ≤ previousDelta
  inside : previousDelta ≤ n
  frames : n = b.frames
  later : (0 < previousDelta ∨ ∃ d ∈ deltas, 0 < d ∧ d < n) → ∀ d ∈ deltas, d < n
  outs : maxNouts < dsp.getNumOutputs → ∃ d ∈ deltas, n ≤ d

section
variable {dsp : Dsp S α} {b b' : Buffers S α} {n previousDelta d : ℤ} {deltas : List ℤ}

/-- The next event is of this chunk. -/
theorem Remaining.tail (h : Remaining dsp b n previousDelta (d :: deltas)) (hd : d < n)
    (hframes : b'.frames = b.frames) : Remaining dsp b' n d deltas := by
  obtain ⟨hle, hsorted⟩ := List.pairwise_cons.mp h.sorted
  have hprev := hle d List.mem_cons_self
  have hstart := h.start
  refine ⟨hsorted, by omega, by omega, ?_, fun hin e he => ?_, fun hmany => ?_⟩
  · rw [hframes]
    exact h.frames
  · refine h.later ?_ e (List.mem_cons_of_mem _ he)
    rcases hin with hpos | ⟨e', he', hin⟩
    · exact Or.inr ⟨d, List.mem_cons_self, hpos, hd⟩
    · exact Or.inr ⟨e', List.mem_cons_of_mem _ he', hin⟩
  · obtain ⟨e, he, hle⟩ := h.outs hmany
    rcases List.mem_cons.mp he with rfl | he
    · omega
    · exact ⟨e, he, hle⟩

/-- The window before the next event is inside of what was allocated. -/
theorem Remaining.window (h : Remaining dsp b n previousDelta (d :: deltas)) (hd : d < n) :
    dsp.Writable (.shifted previousDelta) (d - previousDelta).toNat b.frames := by
  have hstart := h.start
  have hframes := h.frames
  refine fun hcount _ => ⟨?_, hstart, ?_⟩
  · -- more outputs than pointers: an event of a later chunk follows, so nothing is to be written
    show dsp.getNumOutputs ≤ min dsp.getNumOutputs maxNouts
    by_contra hmany
    obtain ⟨e, he, hle⟩ := h.outs (by omega)
    have hlt := h.later (Or.inr ⟨d, List.mem_cons_self, by omega, hd⟩) e he
    omega
  · show previousDelta + _ ≤ _
    omega

end

/-- The events before the end of the chunk, and those of later chunks, which are moved. -/
def played (queue : List NoteEvent) (n : ℤ) : List (ℕ × ℕ) :=
  (queue.filter fun e => e.delta < n).map fun e => (e.note, e.velocity)

/-- The events of later chunks, their offsets reduced. -/
def remaining (queue : List NoteEvent) (n : ℤ) : List NoteEvent :=
  (queue.filter fun e => n ≤ e.delta).map fun e => { e with delta := e.delta - n }

section
variable {queue done rest : List NoteEvent} {n t : ℤ}

theorem upTo_append (hdone : ∀ e ∈ done, e.delta ≤ t) (hrest : ∀ e ∈ rest, t < e.delta) :
    upTo (done ++ rest) t = done.map fun e => (e.note, e.velocity) := by
  rw [upTo, List.filter_append, List.filter_eq_self.mpr (by simpa using hdone),
    List.filter_eq_nil_iff.mpr (by simpa using hrest), List.append_nil]

theorem played_append (hdone : ∀ e ∈ done, e.delta < n) (hrest : ∀ e ∈ rest, n ≤ e.delta) :
    played (done ++ rest) n = done.map fun e => (e.note, e.velocity) := by
  rw [played, List.filter_append, List.filter_eq_self.mpr (by simpa using hdone),
    List.filter_eq_nil_iff.mpr (by simpa using hrest), List.append_nil]

theorem remaining_append (hdone : ∀ e ∈ done, e.delta < n) (hrest : ∀ e ∈ rest, n ≤ e.delta) :
    remaining (done ++ rest) n = rest.map fun e => { e with delta := e.delta - n } := by
  rw [remaining, List.filter_append, List.filter_eq_nil_iff.mpr (by simpa using hdone),
    List.filter_eq_self.mpr (by simpa using hrest), List.nil_append]

theorem queuesOf_map (rest : List NoteEvent) (n : ℤ) :
    queuesOf (rest.map fun e => { e with delta := e.delta - n }) =
      ⟨rest.map NoteEvent.note, rest.map NoteEvent.velocity,
        (rest.map NoteEvent.delta).map (· - n)⟩ := by
  simp [queuesOf, Function.comp_def]

end

section
variable [Add α] [Zero α] {dsp : Dsp S α} {t : Tuning} {b : Buffers S α}
  {v : Voices} {log : List (ℕ × ℕ)} {dsps : ℕ → S} {done rest : List NoteEvent} {n : ℕ}
  {previousDelta : ℤ}

/-- The loop renders what is left of the chunk. -/
theorem playLoop_returns (hp : Partitioned v)
    (hal : Allocated dsp b) (h : Remaining dsp b n previousDelta (rest.map NoteEvent.delta))
    (hrenders : LoopRenders dsp t n rest previousDelta v b)
    (hprogress : Progress dsp log dsps (done ++ rest) previousDelta.toNat b)
    (hlog : eventsOf v.log = log ++ done.map fun e => (e.note, e.velocity))
    (hdone : ∀ e ∈ done, e.delta ≤ previousDelta ∧ e.delta < n) :
    ∃ s' b', playLoop t dsp.render n (queuesOf rest).currentNotes
        (queuesOf rest).currentVelocities (queuesOf rest).currentDeltas previousDelta v b =
          some (s', b') ∧
      Progress dsp log dsps (done ++ rest) n b' ∧
      eventsOf s'.voices.log = log ++ played (done ++ rest) n ∧
      s'.queues = queuesOf (remaining (done ++ rest) n) := by
  induction rest generalizing done previousDelta v b with
  | nil =>
    have hstart := h.start
    have hinside := h.inside
    have hframes := h.frames
    have hw : dsp.Writable (.shifted previousDelta) (n - previousDelta).toNat b.frames := by
      refine fun hcount _ => ⟨?_, hstart, ?_⟩
      · show dsp.getNumOutputs ≤ min dsp.getNumOutputs maxNouts
        by_contra hmany
        obtain ⟨e, he, -⟩ := h.outs (by omega)
        cases he
      · show previousDelta + _ ≤ _
        omega
    obtain ⟨v', b', hcompute, ⟨⟨b₁, hspec⟩, -, -⟩, -, hlog'⟩ :=
      compute_returns (t := t) hp hw hal hrenders
    have hall : ∀ e ∈ ([] : List NoteEvent), (n : ℤ) ≤ e.delta := by simp
    refine ⟨⟨⟨[], [], []⟩, v'⟩, b', ?_, ?_, ?_, ?_⟩
    · simp only [queuesOf, List.map_nil, playLoop, hcompute]
    · have hend := hprogress.call hspec (by show previousDelta = _; omega) fun j hj => ?_
      · have hsum : previousDelta.toNat + ((n : ℤ) - previousDelta).toNat = n := by omega
        rwa [hsum] at hend
      · rw [hlog, upTo_append (fun e he => ?_) (by simp)]
        have hle := (hdone e he).1
        omega
    · rw [hlog', hlog, played_append (fun e he => (hdone e he).2) hall]
    · rw [remaining_append (fun e he => (hdone e he).2) hall]
      rfl
  | cons e rest ih =>
    have hstart := h.start
    have hframes := h.frames
    obtain ⟨hprev, hsorted⟩ := List.pairwise_cons.mp h.sorted
    have hafter : ∀ e' ∈ rest, e.delta ≤ e'.delta := fun e' he' =>
      (List.pairwise_cons.mp hsorted).1 _ (List.mem_map_of_mem he')
    by_cases hlater : (n : ℤ) ≤ e.delta
    · -- the event is of a later chunk, so all those before it were at the start of this one
      have hzero : previousDelta = 0 := by
        by_contra hne
        have hlt := h.later (Or.inl (by omega)) e.delta List.mem_cons_self
        omega
      subst hzero
      have hw : dsp.Writable .caller (n : ℤ).toNat b.frames := by
        refine fun _ _ => ⟨Nat.le_refl _, Int.le_refl 0, ?_⟩
        show 0 + _ ≤ _
        omega
      rw [LoopRenders, if_pos hlater] at hrenders
      obtain ⟨v', b', hcompute, ⟨⟨b₁, hspec⟩, -, -⟩, -, hlog'⟩ :=
        compute_returns (t := t) hp hw hal hrenders
      have hall : ∀ e' ∈ e :: rest, (n : ℤ) ≤ e'.delta := by
        intro e' he'
        rcases List.mem_cons.mp he' with rfl | he'
        · exact hlater
        · exact hlater.trans (hafter e' he')
      refine ⟨⟨⟨(e :: rest).map NoteEvent.note, (e :: rest).map NoteEvent.velocity,
        ((e :: rest).map NoteEvent.delta).map (· - (n : ℤ))⟩, v'⟩, b', ?_, ?_, ?_, ?_⟩
      · simp only [queuesOf, List.map_cons, playLoop, if_pos hlater, hcompute]
      · have hend := hprogress.call hspec rfl fun j hj => ?_
        · have hsum : (0 : ℤ).toNat + (n : ℤ).toNat = n := by omega
          rwa [hsum] at hend
        · rw [hlog, upTo_append (fun e' he' => ?_) fun e' he' => ?_]
          · have hle := (hdone e' he').1
            omega
          · have hle := hall e' he'
            omega
      · rw [hlog', hlog, played_append (fun e' he' => (hdone e' he').2) hall]
      · rw [remaining_append (fun e' he' => (hdone e' he').2) hall, queuesOf_map]
    · have hlt : e.delta < n := by omega
      rw [LoopRenders, if_neg hlater] at hrenders
      obtain ⟨hfits, -, hrest⟩ := hrenders
      obtain ⟨v₁, v', b', hevent, ⟨⟨b₁, hspec⟩, hal', hframes'⟩, hlog₁, hlog'⟩ :=
        playEvent_returns (t := t) hp e.note e.velocity (h.window hlt) hal hfits
      have htail := h.tail hlt hframes'
      have hle := hprev e.delta List.mem_cons_self
      have hqueue : done ++ e :: rest = (done ++ [e]) ++ rest := by simp
      have hdone' : ∀ e' ∈ done ++ [e], e'.delta ≤ e.delta ∧ e'.delta < n := by
        intro e' he'
        rcases List.mem_append.mp he' with he' | he'
        · have hone := hdone e' he'
          omega
        · rw [List.mem_singleton.mp he']
          omega
      have hprogress' : Progress dsp log dsps ((done ++ [e]) ++ rest) e.delta.toNat b' := by
        have hend := hprogress.call hspec (by show previousDelta = _; omega) fun j hj => ?_
        · have hsum : previousDelta.toNat + (e.delta - previousDelta).toNat = e.delta.toNat := by
            omega
          rwa [hsum, hqueue] at hend
        · rw [hlog₁, hlog, upTo_append (fun e' he' => ?_) fun e' he' => ?_]
          · have hone := (hdone e' he').1
            omega
          · -- what is left comes after the window
            have hone : e.delta ≤ e'.delta := by
              rcases List.mem_cons.mp he' with rfl | he'
              · exact Int.le_refl _
              · exact hafter e' he'
            omega
      have hlog'' : eventsOf v'.log = log ++ (done ++ [e]).map fun e => (e.note, e.velocity) := by
        rw [hlog', hlog, List.map_append, List.append_assoc]
        rfl
      obtain ⟨s', b'', hrun, hend⟩ := ih (hp.playEvent hevent).1 hal' htail (hrest v' b' hevent)
        hprogress' hlog'' hdone'
      rw [← hqueue] at hend
      refine ⟨s', b'', ?_, hend⟩
      have hloop := hrun
      simp only [queuesOf, List.map_cons, playLoop, if_neg hlater, hevent] at hloop ⊢
      exact hloop

theorem Progress.start (htrace : b.trace = []) (queue : List NoteEvent) :
    Progress dsp log b.dsps queue 0 b := by
  refine ⟨?_, fun r hr => ?_, fun x _ => ?_, fun r hr => ?_⟩
  · rw [htrace]
    rfl
  · rw [htrace] at hr
    cases hr
  · rw [htrace]
    exact ⟨rfl, rfl⟩
  · rw [htrace] at hr
    cases hr

/-- The condition is enough for the call to return, and for what is rendered and applied. -/
theorem Renderable.returns {queue : List NoteEvent} (hp : Partitioned v)
    (hsorted : ((0 : ℤ) :: queue.map NoteEvent.delta).Pairwise (· ≤ ·)) (hframes : b.frames = n)
    (hal : Allocated dsp b) (htrace : b.trace = [])
    (h : Renderable dsp.getNumOutputs n (queue.map NoteEvent.delta))
    (hrenders : LoopRenders dsp t n queue 0 v b) :
    ∃ s' b', Synth.synthProcessReplacing t dsp.render ⟨queuesOf queue, v⟩ n b = some (s', b') ∧
      Progress dsp (eventsOf v.log) b.dsps queue n b' ∧
      eventsOf s'.voices.log = eventsOf v.log ++ played queue n ∧
      s'.queues = queuesOf (remaining queue n) := by
  have hprogress : Progress dsp (eventsOf v.log) b.dsps queue 0 b := Progress.start htrace queue
  by_cases hqueue : queue = []
  · subst hqueue
    have hw : dsp.Writable .caller (n : ℤ).toNat b.frames := by
      refine fun _ _ => ⟨Nat.le_refl _, Int.le_refl 0, ?_⟩
      show 0 + _ ≤ _
      omega
    obtain ⟨v', b', hcompute, ⟨⟨b₁, hspec⟩, -, -⟩, -, hlog'⟩ :=
      compute_returns (t := t) hp hw hal (by rwa [LoopRenders, Int.sub_zero] at hrenders)
    have hnotes : (queuesOf []).currentNotes = [] := rfl
    refine ⟨⟨queuesOf [], v'⟩, b', ?_, ?_, ?_, rfl⟩
    · simp only [Synth.synthProcessReplacing, if_pos hnotes, hcompute]
    · have hend := hprogress.call hspec rfl fun j _ => (List.append_nil _).symm
      have hsum : 0 + (n : ℤ).toNat = n := by omega
      rwa [hsum] at hend
    · show eventsOf v'.log = _ ++ []
      rw [hlog', List.append_nil]
  · have hremaining : Remaining dsp b n 0 (queue.map NoteEvent.delta) := by
      refine ⟨hsorted, Int.le_refl 0, by omega, by omega, fun hin => ?_, fun hmany => ?_⟩
      · exact h.later (hin.resolve_left (Int.lt_irrefl 0))
      · -- the first event is of this chunk or of a later one
        obtain ⟨e, rest, rfl⟩ := List.exists_cons_of_ne_nil hqueue
        by_cases hlater : (n : ℤ) ≤ e.delta
        · exact ⟨e.delta, List.mem_cons_self, hlater⟩
        · exact h.outs hmany ⟨e.delta, List.mem_cons_self, by omega⟩
    have hnone : ∀ e ∈ ([] : List NoteEvent), e.delta ≤ 0 ∧ e.delta < n := by simp
    obtain ⟨s', b', hrun, hend⟩ :=
      playLoop_returns (t := t) hp hal hremaining hrenders hprogress (by simp) hnone
    refine ⟨s', b', ?_, hend⟩
    have hnotes : (queuesOf queue).currentNotes ≠ [] := by
      rw [queuesOf]
      simpa using hqueue
    rw [Synth.synthProcessReplacing, if_neg hnotes]
    exact hrun

end

end Faust.Vst

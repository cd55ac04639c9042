import Mathlib
import Faust.Vst.VoicesTheorems

/-!
# The signals of the VST instrument (`Faust::compute`)

`compute` clears the outputs, makes the temporary buffers longer if it has to, lets each voice that
plays fill them and adds them to the outputs, which are divided by a constant at the end. A loop
over the outputs and the frames is one change of a window of the outputs here. What is read or
written outside of what was allocated gives no result.
-/

namespace Faust.Vst

/-- `MAX_NOUTS`: the pointers that `synthProcessReplacing` copies. -/
def maxNouts : ℕ := 64

/-- The voices' signal processor, and what the mixdown does with samples. -/
structure Dsp (S α : Type*) where
  getNumOutputs : ℕ
  /-- A sample of an output, for some controls. -/
  sample : Controls → S → ℕ → α
  next : Controls → S → S
  /-- The division by the root of `MAX_POLYPHONY`. -/
  normalize : α → α
  /-- The magnitude is above `1e-6`. -/
  audible : α → Bool

/-- A call of `compute`, for the record. -/
structure Rendered (S : Type*) where
  start : ℕ
  count : ℕ
  voices : Voices
  dsps : ℕ → S

/-- The frames that a call of `compute` writes. -/
def Rendered.frames {S : Type*} (r : Rendered S) : List ℕ :=
  (List.range r.count).map (r.start + ·)

/-- The states of the voices' processors, the buffers and the outputs of the caller. `tempOutputs`
holds the frames that each buffer was allocated for, `frames` those of each output. `trace` is not
in the code: it records the calls of `compute`. -/
structure Buffers (S α : Type*) where
  dsps : ℕ → S
  tempOutputs : List ℕ
  tempOutputSize : ℕ
  outputs : ℕ → ℕ → α
  frames : ℕ
  trace : List (Rendered S)

/-- The frame where the pointers start. -/
def Outputs.start : Outputs → ℤ
  | caller => 0
  | shifted offset => offset

/-- The pointers that there are, for an instrument of so many outputs. -/
def Outputs.pointers (numOutputs : ℕ) : Outputs → ℕ
  | caller => numOutputs
  | shifted _ => min numOutputs maxNouts

namespace Dsp

variable {S α : Type*} (dsp : Dsp S α)

/-- What a voice writes into the temporary buffers. -/
def block (c : Controls) (s : S) (i frame : ℕ) : α := dsp.sample c ((dsp.next c)^[frame] s) i

/-- A change of every output in a window of frames. -/
def onWindow (out : Outputs) (count : ℕ) (f : ℕ → ℕ → α → α) (outputs : ℕ → ℕ → α) (i t : ℕ) : α :=
  if i < dsp.getNumOutputs ∧ out.start ≤ t ∧ t < out.start + count then
    f i (t - out.start).toNat (outputs i t)
  else outputs i t

theorem onWindow_of_mem {dsp : Dsp S α} {out : Outputs} {count : ℕ} {f : ℕ → ℕ → α → α}
    {outputs : ℕ → ℕ → α} {i j t : ℕ}
    (hi : i < dsp.getNumOutputs) (hj : j < count) (ht : (t : ℤ) = out.start + j) :
    dsp.onWindow out count f outputs i t = f i j (outputs i t) := by
  have hframe : ((t : ℤ) - out.start).toNat = j := by omega
  rw [onWindow, if_pos ⟨hi, by omega, by omega⟩, hframe]

theorem onWindow_of_not_mem {dsp : Dsp S α} {out : Outputs} {count : ℕ} {f : ℕ → ℕ → α → α}
    {outputs : ℕ → ℕ → α} {i t : ℕ}
    (ht : (t : ℤ) < out.start ∨ out.start + count ≤ t) :
    dsp.onWindow out count f outputs i t = outputs i t := by
  rw [onWindow, if_neg fun h => ?_]
  obtain ⟨-, hle, hlt⟩ := h
  omega

/-- The outputs can be written: if there are frames and outputs, the pointers are there and the
frames are those of the caller. -/
def Writable (out : Outputs) (count frames : ℕ) : Prop :=
  0 < count → 0 < dsp.getNumOutputs →
    dsp.getNumOutputs ≤ out.pointers dsp.getNumOutputs ∧ 0 ≤ out.start ∧
      out.start + count ≤ frames

instance (out : Outputs) (count frames : ℕ) : Decidable (dsp.Writable out count frames) :=
  inferInstanceAs (Decidable (_ → _ → _))

variable (b : Buffers S α)

/-- The temporary buffers are made longer, `MAX_POLYPHONY` of them. -/
def grow (count : ℕ) : Option (Buffers S α) :=
  if b.tempOutputSize < count then
    if maxPolyphony ≤ b.tempOutputs.length then
      some { b with
        tempOutputs := List.replicate maxPolyphony (count * dsp.getNumOutputs) ++
          b.tempOutputs.drop maxPolyphony
        tempOutputSize := count }
    else none
  else some b

/-- What growing leaves as it is. -/
theorem grow_eq_some {dsp : Dsp S α} {b b₁ : Buffers S α} {count : ℕ}
    (h : dsp.grow b count = some b₁) :
    b₁.dsps = b.dsps ∧ b₁.outputs = b.outputs ∧ b₁.frames = b.frames ∧ b₁.trace = b.trace ∧
      ((b.tempOutputSize < count ∧ maxPolyphony ≤ b.tempOutputs.length ∧
        b₁.tempOutputSize = count ∧
        b₁.tempOutputs = List.replicate maxPolyphony (count * dsp.getNumOutputs) ++
          b.tempOutputs.drop maxPolyphony) ∨
      (count ≤ b.tempOutputSize ∧ b₁ = b)) := by
  rw [grow] at h
  split at h
  · next hlt =>
    split at h
    · next hlen =>
      cases h
      exact ⟨rfl, rfl, rfl, rfl, Or.inl ⟨hlt, hlen, rfl, rfl⟩⟩
    · cases h
  · next hle =>
    cases h
    exact ⟨rfl, rfl, rfl, rfl, Or.inr ⟨by omega, rfl⟩⟩

/-- The buffers do not depend on the outputs. -/
theorem grow_with (count : ℕ) (outputs : ℕ → ℕ → α) (trace : List (Rendered S)) :
    dsp.grow { b with outputs := outputs, trace := trace } count =
      (dsp.grow b count).map fun b₁ => { b₁ with outputs := outputs, trace := trace } := by
  rw [grow, grow]
  split
  · split <;> rfl
  · rfl

/-- A voice can fill the buffers. -/
def Fills (count : ℕ) : Prop :=
  ∀ i < dsp.getNumOutputs, count ≤ (b.tempOutputs[i]?).getD 0

instance (count : ℕ) : Decidable (dsp.Fills b count) :=
  inferInstanceAs (Decidable (∀ i < _, _))

variable [Add α]

/-- A turn of the loop over the voices that play: what is added to the outputs, and whether the
voice was silent. -/
def mixStep (out : Outputs) (count : ℕ) (v : Voices) (s : Buffers S α × (ℕ → Bool))
    (n : VoiceNode) : Buffers S α × (ℕ → Bool) :=
  let block := dsp.block (v.controls n.voice) (s.1.dsps n.voice)
  ({ s.1 with
      dsps := Function.update s.1.dsps n.voice
        ((dsp.next (v.controls n.voice))^[count] (s.1.dsps n.voice))
      outputs := dsp.onWindow out count (fun i frame x => x + block i frame) s.1.outputs },
    Function.update s.2 n.voice
      (decide (∀ i < dsp.getNumOutputs, ∀ frame < count, ¬ dsp.audible (block i frame) = true)))

section
variable {dsp} {out : Outputs} {count : ℕ} {v : Voices}

/-- What the loop over the voices makes. -/
structure MixSpec (dsp : Dsp S α) (out : Outputs) (count : ℕ) (v : Voices)
    (nodes : List VoiceNode) (b b' : Buffers S α) : Prop where
  outputs : ∀ i < dsp.getNumOutputs, ∀ j < count, ∀ t : ℕ, (t : ℤ) = out.start + j →
    b'.outputs i t = (nodes.map fun n =>
      dsp.block (v.controls n.voice) (b.dsps n.voice) i j).foldl (· + ·) (b.outputs i t)
  kept : ∀ i t : ℕ, ((t : ℤ) < out.start ∨ out.start + count ≤ t) →
    b'.outputs i t = b.outputs i t
  dsps : ∀ x, b'.dsps x = if x ∈ nodes.map VoiceNode.voice then
    (dsp.next (v.controls x))^[count] (b.dsps x) else b.dsps x
  tempOutputs : b'.tempOutputs = b.tempOutputs
  tempOutputSize : b'.tempOutputSize = b.tempOutputSize
  frames : b'.frames = b.frames
  trace : b'.trace = b.trace

theorem mixStep_outputs (s : Buffers S α × (ℕ → Bool)) (n : VoiceNode) :
    (dsp.mixStep out count v s n).1.outputs = dsp.onWindow out count
      (fun i frame x => x + dsp.block (v.controls n.voice) (s.1.dsps n.voice) i frame)
      s.1.outputs := rfl

theorem foldl_mixStep {nodes : List VoiceNode} (hnodup : (nodes.map VoiceNode.voice).Nodup)
    (b : Buffers S α) (silent : ℕ → Bool) :
    MixSpec dsp out count v nodes b
      (nodes.foldl (dsp.mixStep out count v) (b, silent)).1 := by
  induction nodes generalizing b silent with
  | nil => exact ⟨fun _ _ _ _ _ _ => rfl, fun _ _ _ => rfl, fun _ => rfl, rfl, rfl, rfl, rfl⟩
  | cons n nodes ih =>
    obtain ⟨hn, hnodes⟩ := List.nodup_cons.mp hnodup
    have hother : ∀ m ∈ nodes, m.voice ≠ n.voice :=
      fun m hm heq => hn (heq ▸ List.mem_map_of_mem hm)
    rw [List.foldl_cons]
    obtain ⟨houtputs, hkept, hdsps, htemp, hsize, hframes, htrace⟩ :=
      ih hnodes (dsp.mixStep out count v (b, silent) n).1 (dsp.mixStep out count v (b, silent) n).2
    refine ⟨fun i hi j hj t ht => ?_, fun i t ht => ?_, fun x => ?_, htemp, hsize, hframes, htrace⟩
    · rw [houtputs i hi j hj t ht, List.map_cons, List.foldl_cons]
      have hrest : (nodes.map fun m => dsp.block (v.controls m.voice)
            ((dsp.mixStep out count v (b, silent) n).1.dsps m.voice) i j) =
          nodes.map fun m => dsp.block (v.controls m.voice) (b.dsps m.voice) i j := by
        refine List.map_congr_left fun m hm => ?_
        show dsp.block _ (Function.update b.dsps n.voice _ m.voice) i j = _
        rw [Function.update_of_ne (hother m hm)]
      rw [hrest, mixStep_outputs, onWindow_of_mem hi hj ht]
    · rw [hkept i t ht, mixStep_outputs]
      exact onWindow_of_not_mem ht
    · rw [hdsps x]
      show (if _ then _^[count] (Function.update b.dsps n.voice _ x) else
        Function.update b.dsps n.voice _ x) = _
      by_cases hx : x = n.voice
      · subst hx
        have hmem : n.voice ∈ (n :: nodes).map VoiceNode.voice := List.mem_cons_self
        rw [if_neg hn, Function.update_self, if_pos hmem]
      · rw [Function.update_of_ne hx]
        simp [hx]

/-- Which voices were silent. -/
theorem silent_foldl_mixStep {nodes : List VoiceNode} (hnodup : (nodes.map VoiceNode.voice).Nodup)
    (b : Buffers S α) (silent : ℕ → Bool) :
    (∀ x, x ∉ nodes.map VoiceNode.voice →
      (nodes.foldl (dsp.mixStep out count v) (b, silent)).2 x = silent x) ∧
    ∀ n ∈ nodes, (nodes.foldl (dsp.mixStep out count v) (b, silent)).2 n.voice =
      decide (∀ i < dsp.getNumOutputs, ∀ frame < count,
        ¬ dsp.audible (dsp.block (v.controls n.voice) (b.dsps n.voice) i frame) = true) := by
  induction nodes generalizing b silent with
  | nil => exact ⟨fun _ _ => rfl, fun n hn => by cases hn⟩
  | cons m nodes ih =>
    obtain ⟨hm, hnodes⟩ := List.nodup_cons.mp hnodup
    obtain ⟨hother, hself⟩ :=
      ih hnodes (dsp.mixStep out count v (b, silent) m).1 (dsp.mixStep out count v (b, silent) m).2
    rw [List.foldl_cons]
    refine ⟨fun x hx => ?_, fun n hn => ?_⟩
    · rw [List.map_cons, List.mem_cons, not_or] at hx
      rw [hother x hx.2]
      exact Function.update_of_ne hx.1 _ _
    · rcases List.mem_cons.mp hn with rfl | hn
      · rw [hother _ hm]
        exact Function.update_self ..
      · have hne : n.voice ≠ m.voice := fun h => hm (h ▸ List.mem_map_of_mem hn)
        rw [hself n hn]
        have hdsps : (dsp.mixStep out count v (b, silent) m).1.dsps n.voice = b.dsps n.voice :=
          Function.update_of_ne hne _ _
        rw [hdsps]

end

variable [Zero α]

/-- The signals and the mixdown of `compute`. A negative number of frames is as none. -/
def render : Run (Buffers S α) := fun out sampleFrames v b =>
  let count := sampleFrames.toNat
  if dsp.Writable out count b.frames then
    match dsp.grow { b with
        outputs := dsp.onWindow out count (fun _ _ _ => 0) b.outputs
        trace := b.trace ++ [⟨out.start.toNat, count, v, b.dsps⟩] } count with
    | none => none
    | some b =>
      if v.playingVoices = [] ∨ dsp.Fills b count then
        let s := v.playingVoices.foldl (dsp.mixStep out count v) (b, fun _ => false)
        some ({ s.1 with
          outputs := dsp.onWindow out count (fun _ _ x => dsp.normalize x) s.1.outputs }, s.2)
      else none
  else none

/-! ## What one `compute` makes -/

/-- The mix of the voices that play, so many samples after these states. -/
def mixAt (v : Voices) (dsps : ℕ → S) (j i : ℕ) : α :=
  dsp.normalize ((v.playingVoices.map fun n =>
    dsp.block (v.controls n.voice) (dsps n.voice) i j).foldl (· + ·) 0)

/-- The state of a processor after so many samples, if its voice plays. -/
def advance (v : Voices) (count : ℕ) (dsps : ℕ → S) (x : ℕ) : S :=
  if x ∈ v.playingVoices.map VoiceNode.voice then (dsp.next (v.controls x))^[count] (dsps x)
  else dsps x

/-- What a `compute` that stays inside of what was allocated makes, after the buffers grew to
`b₁`. -/
structure RenderSpec (out : Outputs) (count : ℕ) (v : Voices) (b b₁ b' : Buffers S α) :
    Prop where
  outputs : ∀ i < dsp.getNumOutputs, ∀ j < count, ∀ t : ℕ, (t : ℤ) = out.start + j →
    b'.outputs i t = dsp.mixAt v b.dsps j i
  kept : ∀ i t : ℕ, ((t : ℤ) < out.start ∨ out.start + count ≤ t) →
    b'.outputs i t = b.outputs i t
  dsps : ∀ x, b'.dsps x = dsp.advance v count b.dsps x
  tempOutputs : b'.tempOutputs = b₁.tempOutputs
  tempOutputSize : b'.tempOutputSize = b₁.tempOutputSize
  frames : b'.frames = b.frames
  trace : b'.trace = b.trace ++ [⟨out.start.toNat, count, v, b.dsps⟩]

variable {dsp} {b b₁ b' : Buffers S α} {out : Outputs} {count : ℕ} {v : Voices}

/-- What is known of a `compute` that returns. -/
theorem render_eq_some (hp : Partitioned v) {sampleFrames : ℤ} {silent : ℕ → Bool}
    (h : dsp.render out sampleFrames v b = some (b', silent)) :
    dsp.Writable out sampleFrames.toNat b.frames ∧ ∃ b₁, dsp.grow b sampleFrames.toNat = some b₁ ∧
      dsp.RenderSpec out sampleFrames.toNat v b b₁ b' := by
  rw [render] at h
  split at h
  · next hwritable =>
    refine ⟨hwritable, ?_⟩
    rw [grow_with] at h
    cases hgrow : dsp.grow b sampleFrames.toNat with
    | none =>
      rw [hgrow] at h
      cases h
    | some b₁ =>
      obtain ⟨hdsps, -, hframes, -⟩ := grow_eq_some hgrow
      rw [hgrow] at h
      dsimp only [Option.map_some] at h
      split at h
      · cases h
        have hmix : MixSpec dsp out sampleFrames.toNat v _ _ _ := foldl_mixStep hp.nodup_voices
          { b₁ with
            outputs := dsp.onWindow out sampleFrames.toNat (fun _ _ _ => 0) b.outputs
            trace := b.trace ++ [⟨out.start.toNat, sampleFrames.toNat, v, b.dsps⟩] }
          fun _ => false
        refine ⟨b₁, rfl, ⟨fun i hi j hj t ht => ?_, fun i t ht => ?_, fun x => ?_,
          hmix.tempOutputs, hmix.tempOutputSize, hmix.frames.trans hframes, hmix.trace⟩⟩
        · dsimp only
          rw [onWindow_of_mem hi hj ht, hmix.outputs i hi j hj t ht]
          dsimp only
          rw [onWindow_of_mem hi hj ht, mixAt, hdsps]
        · dsimp only
          rw [onWindow_of_not_mem ht, hmix.kept i t ht]
          dsimp only
          exact onWindow_of_not_mem ht
        · rw [advance]
          refine (hmix.dsps x).trans ?_
          dsimp only
          rw [hdsps]
      · cases h
  · cases h

/-- Which voices were silent in a `compute` that returns, and that the buffers were filled. -/
theorem render_voices (hp : Partitioned v) {sampleFrames : ℤ} {silent : ℕ → Bool}
    (h : dsp.render out sampleFrames v b = some (b', silent)) :
    (∃ b₁, dsp.grow b sampleFrames.toNat = some b₁ ∧
      (v.playingVoices ≠ [] → dsp.Fills b₁ sampleFrames.toNat)) ∧
    ∀ n ∈ v.playingVoices, silent n.voice = true ↔
      ∀ i < dsp.getNumOutputs, ∀ frame < sampleFrames.toNat,
        ¬ dsp.audible (dsp.block (v.controls n.voice) (b.dsps n.voice) i frame) = true := by
  rw [render] at h
  split at h
  · rw [grow_with] at h
    cases hgrow : dsp.grow b sampleFrames.toNat with
    | none =>
      rw [hgrow] at h
      cases h
    | some b₁ =>
      obtain ⟨hdsps, -⟩ := grow_eq_some hgrow
      rw [hgrow] at h
      dsimp only [Option.map_some] at h
      split at h
      · next hfills =>
        cases h
        refine ⟨⟨b₁, rfl, fun hne => hfills.resolve_left hne⟩, fun n hn => ?_⟩
        have hsilent := (@silent_foldl_mixStep S α dsp _ out sampleFrames.toNat v _ hp.nodup_voices
          { b₁ with
            outputs := dsp.onWindow out sampleFrames.toNat (fun _ _ _ => 0) b.outputs
            trace := b.trace ++ [⟨out.start.toNat, sampleFrames.toNat, v, b.dsps⟩] }
          fun _ => false).2 n hn
        refine (Bool.eq_iff_iff.mp hsilent).trans ?_
        rw [decide_eq_true_eq]
        dsimp only
        rw [hdsps]
      · cases h
  · cases h

/-- What is needed to return. -/
theorem render_isSome {sampleFrames : ℤ} (hw : dsp.Writable out sampleFrames.toNat b.frames)
    (hgrow : dsp.grow b sampleFrames.toNat = some b₁)
    (hf : v.playingVoices ≠ [] → dsp.Fills b₁ sampleFrames.toNat) :
    ∃ r, dsp.render out sampleFrames v b = some r := by
  have hfills : ∀ (outputs : ℕ → ℕ → α) (trace : List (Rendered S)), v.playingVoices = [] ∨
      dsp.Fills { b₁ with outputs := outputs, trace := trace } sampleFrames.toNat := by
    intro outputs trace
    exact or_iff_not_imp_left.mpr hf
  rw [render, if_pos hw, grow_with, hgrow]
  exact ⟨_, if_pos (hfills _ _)⟩

end Dsp

end Faust.Vst

import Mathlib.Data.List.Nodup
import Faust.Vst.Voices

/-!
# What becomes of the voices of the VST instrument

`Partitioned`: the free voices and the voices that play are the voices of the instrument, each of
them once, and the released voices are some that play. This holds in every run. `Following`: the
gates follow the events. This holds in the runs where no released voice is taken for a new note, and
where a note off finds no two voices to release.
-/

namespace Faust.Vst

/-! ## The gate of a voice -/

namespace Controls

variable {c : Controls}

/-- To set a control leaves the indices and the other controls as they are. -/
theorem setAny_eq (c : Controls) (index : ℤ) (val : ℚ) :
    ∃ table, c.setAny index val = { c with fUITable := table } ∧
      ∀ j, (c.setAny index val).object j = if index = j then
        (c.object j).map fun o => o.setValueNoNormalization val else c.object j := by
  have hignored : (∀ j, index = j → c.object j = none) → ∀ j, c.object j = if index = j then
      (c.object j).map fun o => o.setValueNoNormalization val else c.object j := by
    intro hnone j
    split
    · next h => rw [hnone j h, Option.map_none]
    · rfl
  unfold setAny
  split
  · next hneg =>
    exact ⟨c.fUITable, rfl, hignored fun j h => if_pos (h ▸ hneg)⟩
  · next hneg =>
    split
    · next hlong =>
      refine ⟨c.fUITable, rfl, hignored fun j h => ?_⟩
      subst h
      rw [object, if_neg hneg, List.getElem?_eq_none (by omega)]
    · next hlong =>
      refine ⟨_, rfl, fun j => ?_⟩
      simp only [object]
      by_cases hj : j < 0
      · rw [if_pos hj, if_neg (by omega), if_pos hj]
      · rw [if_neg hj, List.getElem?_modify]
        by_cases h : index = j
        · subst h
          rw [if_pos rfl, if_neg hj]
          simp
        · rw [if_neg h, if_neg hj]
          have hne : index.toNat ≠ j.toNat := by omega
          simp [hne]

/-- The processor has a gate control, which takes the values 0 and 1, and no other control that is
set is the gate. -/
structure Gated (c : Controls) : Prop where
  object : ∃ o, c.object c.gateIndex = some o ∧ o.fMin ≤ 0 ∧ 1 ≤ o.fMax
  freq : c.freqIndex ≠ c.gateIndex
  gain : c.gainIndex ≠ c.gateIndex
  prevFreq : c.prevFreqIndex ≠ c.gateIndex
  pitchbend : c.pitchbendIndex ≠ c.gateIndex

theorem Gated.setAny (h : c.Gated) (index : ℤ) (val : ℚ) : (c.setAny index val).Gated := by
  obtain ⟨table, heq, hobject⟩ := c.setAny_eq index val
  obtain ⟨o, ho, hmin, hmax⟩ := h.object
  have hnew := hobject c.gateIndex
  rw [heq] at hnew ⊢
  refine ⟨?_, h.freq, h.gain, h.prevFreq, h.pitchbend⟩
  split at hnew
  · rw [ho] at hnew
    exact ⟨_, hnew, hmin, hmax⟩
  · exact ⟨o, hnew.trans ho, hmin, hmax⟩

theorem gate_setAny_of_ne {index : ℤ} (h : index ≠ c.gateIndex) (val : ℚ) :
    (c.setAny index val).gate = c.gate := by
  obtain ⟨table, heq, hobject⟩ := c.setAny_eq index val
  have hnew := hobject c.gateIndex
  rw [if_neg h] at hnew
  rw [gate, gate, ← hnew, heq]

/-- A value between the bounds is not clipped. -/
theorem Gated.gate_setGate (h : c.Gated) {val : ℚ} (hval : ∀ o : UIObject, o.fMin ≤ 0 →
    1 ≤ o.fMax → o.fMin ≤ val ∧ val ≤ o.fMax) : (c.setGate val).gate = val := by
  obtain ⟨table, heq, hobject⟩ := c.setAny_eq c.gateIndex val
  obtain ⟨o, ho, hmin, hmax⟩ := h.object
  obtain ⟨hlo, hhi⟩ := hval o hmin hmax
  have hnew := hobject c.gateIndex
  rw [if_pos rfl, ho, Option.map_some] at hnew
  rw [setGate]
  rw [heq] at hnew ⊢
  have hgate : Controls.gate { c with fUITable := table } =
      (o.setValueNoNormalization val).fZone := by
    rw [gate, hnew]
    rfl
  rw [hgate, UIObject.setValueNoNormalization, if_neg hlo.not_gt, if_neg hhi.not_gt]

theorem Gated.gate_close (h : c.Gated) : (c.setGate 0).gate = 0 :=
  h.gate_setGate fun _ hmin hmax => ⟨hmin, zero_le_one.trans hmax⟩

theorem Gated.gate_open (h : c.Gated) : (c.setGate 1).gate = 1 :=
  h.gate_setGate fun _ hmin hmax => ⟨hmin.trans zero_le_one, hmax⟩

/-- The controls are as they were, except for that of the previous frequency. -/
structure Kept (c c' : Controls) : Prop where
  indices : ∃ table, c' = { c with fUITable := table }
  object : ∀ j, j ≠ c.prevFreqIndex → c'.object j = c.object j

theorem Kept.refl (c : Controls) : Kept c c := ⟨⟨c.fUITable, rfl⟩, fun _ _ => rfl⟩

theorem Kept.trans {c c' c'' : Controls} (h : Kept c c') (h' : Kept c' c'') : Kept c c'' := by
  obtain ⟨⟨table, rfl⟩, hobject⟩ := h
  obtain ⟨⟨table', rfl⟩, hobject'⟩ := h'
  exact ⟨⟨table', rfl⟩, fun j hj => (hobject' j hj).trans (hobject j hj)⟩

theorem Kept.setPrevFreq (c : Controls) (val : ℚ) : Kept c (c.setPrevFreq val) := by
  obtain ⟨table, heq, hobject⟩ := c.setAny_eq c.prevFreqIndex val
  exact ⟨⟨table, heq⟩, fun j hj => (hobject j).trans (if_neg hj.symm)⟩

theorem Kept.setAny {c c' : Controls} (h : Kept c c') (index : ℤ) (val : ℚ) :
    Kept (c.setAny index val) (c'.setAny index val) := by
  obtain ⟨⟨table, rfl⟩, hobject⟩ := h
  obtain ⟨table₁, heq₁, hobject₁⟩ := c.setAny_eq index val
  obtain ⟨table₂, heq₂, hobject₂⟩ := Controls.setAny_eq { c with fUITable := table } index val
  refine ⟨⟨table₂, by rw [heq₁, heq₂]⟩, fun j hj => ?_⟩
  have hj' : j ≠ c.prevFreqIndex := by
    rw [heq₁] at hj
    exact hj
  rw [hobject₁, hobject₂, hobject j hj']

theorem Kept.setFreq {c c' : Controls} (h : Kept c c') (val : ℚ) :
    Kept (c.setFreq val) (c'.setFreq val) := by
  obtain ⟨⟨table, rfl⟩, -⟩ := id h
  exact h.setAny c.freqIndex val

theorem Kept.setGain {c c' : Controls} (h : Kept c c') (val : ℚ) :
    Kept (c.setGain val) (c'.setGain val) := by
  obtain ⟨⟨table, rfl⟩, -⟩ := id h
  exact h.setAny c.gainIndex val

theorem Kept.setGate {c c' : Controls} (h : Kept c c') (val : ℚ) :
    Kept (c.setGate val) (c'.setGate val) := by
  obtain ⟨⟨table, rfl⟩, -⟩ := id h
  exact h.setAny c.gateIndex val

theorem Kept.gate {c c' : Controls} (h : Kept c c') (hc : c.Gated) : c'.gate = c.gate := by
  obtain ⟨⟨table, rfl⟩, hobject⟩ := h
  exact congrArg (fun o : Option UIObject => (o.map UIObject.fZone).getD 0)
    (hobject _ hc.prevFreq.symm)

theorem Kept.gated {c c' : Controls} (h : Kept c c') (hc : c.Gated) : c'.Gated := by
  obtain ⟨⟨table, rfl⟩, hobject⟩ := h
  obtain ⟨o, ho, hbounds⟩ := hc.object
  exact ⟨⟨o, (hobject _ hc.prevFreq.symm).trans ho, hbounds⟩, hc.freq, hc.gain, hc.prevFreq,
    hc.pitchbend⟩

/-! ### The interface that is built -/

/-- The indices that were given are those of different controls. -/
structure Indexed (c : Controls) : Prop where
  freq : c.freqIndex < c.fUITable.length
  gain : c.gainIndex < c.fUITable.length
  gate : c.gateIndex < c.fUITable.length
  freqGate : c.freqIndex = c.gateIndex → c.gateIndex = -1
  gainGate : c.gainIndex = c.gateIndex → c.gateIndex = -1

theorem Indexed.add (h : c.Indexed) (w : Widget) : (c.add w).Indexed := by
  obtain ⟨hfreq, hgain, hgate, hfreqGate, hgainGate⟩ := h
  cases w with
  | button label =>
    by_cases hlabel : label = "gate"
    · constructor <;> simp [Controls.add, push, ckAnyMatch, hlabel] <;> omega
    · constructor <;> simp [Controls.add, push, ckAnyMatch, hlabel] <;> omega
  | checkButton label => constructor <;> simp [Controls.add, push] <;> omega
  | slider label init min max =>
    by_cases hlabel : label = "gate"
    · constructor <;>
        simp [Controls.add, push, ckAllMatches, ckAnyMatch, hlabel] <;> omega
    · constructor <;>
        simp only [Controls.add, push, ckAllMatches, ckAnyMatch, hlabel, if_false,
          List.length_append, List.length_singleton] <;> (repeat' split) <;> omega

theorem indexed_build (widgets : List Widget) (prevFreqIndex pitchbendIndex : ℤ) :
    (build widgets prevFreqIndex pitchbendIndex).Indexed := by
  have hall : ∀ c : Controls, c.Indexed → (widgets.foldl Controls.add c).Indexed := by
    induction widgets with
    | nil => exact fun _ h => h
    | cons w widgets ih => exact fun c h => ih _ (h.add w)
  exact hall _ (by constructor <;> simp [new])

/-- The processor has a gate control, which takes the values 0 and 1 and is closed at the start. -/
structure HasGate (c : Controls) : Prop where
  object : ∃ o, c.object c.gateIndex = some o ∧ o.fMin ≤ 0 ∧ 1 ≤ o.fMax
  closed : c.gate = 0

/-- The indices that the constructor does not initialise are not that of the gate. -/
structure Apart (c : Controls) : Prop where
  prevFreq : c.prevFreqIndex ≠ c.gateIndex
  pitchbend : c.pitchbendIndex ≠ c.gateIndex

theorem gated_build {widgets : List Widget} {prevFreqIndex pitchbendIndex : ℤ}
    (hgate : (build widgets prevFreqIndex pitchbendIndex).HasGate)
    (hapart : (build widgets prevFreqIndex pitchbendIndex).Apart) :
    (build widgets prevFreqIndex pitchbendIndex).Gated := by
  obtain ⟨-, -, -, hfreq, hgain⟩ := indexed_build widgets prevFreqIndex pitchbendIndex
  have hvalid : (build widgets prevFreqIndex pitchbendIndex).gateIndex ≠ -1 := by
    intro h
    obtain ⟨o, ho, -⟩ := hgate.object
    rw [h] at ho
    cases ho
  exact ⟨hgate.object, fun h => hvalid (hfreq h), fun h => hvalid (hgain h), hapart.prevFreq,
    hapart.pitchbend⟩

end Controls

variable {W : Type*} {t : Tuning} {v v' : Voices}

/-! ## The containers -/

/-- Each voice is free or plays, and is held once. -/
structure Partitioned (v : Voices) : Prop where
  perm : (v.freeVoices ++ v.playingVoices.map VoiceNode.voice).Perm (List.range maxPolyphony)
  nodup : v.releasedVoices.Nodup
  plays : ∀ x ∈ v.releasedVoices, x ∈ v.playingVoices.map VoiceNode.voice

namespace Partitioned

theorem nodup_all (h : Partitioned v) :
    (v.freeVoices ++ v.playingVoices.map VoiceNode.voice).Nodup :=
  h.perm.nodup_iff.mpr List.nodup_range

theorem nodup_voices (h : Partitioned v) : (v.playingVoices.map VoiceNode.voice).Nodup :=
  (List.nodup_append.mp h.nodup_all).2.1

theorem nodup_playing (h : Partitioned v) : v.playingVoices.Nodup := h.nodup_voices.of_map _

/-- A free voice does not play. -/
theorem not_mem_playing (h : Partitioned v) {x : ℕ} (hx : x ∈ v.freeVoices) :
    x ∉ v.playingVoices.map VoiceNode.voice := fun hplays =>
  (List.nodup_append.mp h.nodup_all).2.2 x hx x hplays rfl

/-- Every voice of the instrument is held. -/
theorem mem_or (h : Partitioned v) {x : ℕ} (hx : x < maxPolyphony) :
    x ∈ v.freeVoices ∨ x ∈ v.playingVoices.map VoiceNode.voice :=
  List.mem_append.mp (h.perm.mem_iff.mpr (List.mem_range.mpr hx))

theorem lt (h : Partitioned v) {n : VoiceNode} (hn : n ∈ v.playingVoices) :
    n.voice < maxPolyphony :=
  List.mem_range.mp (h.perm.mem_iff.mp (List.mem_append_right _ (List.mem_map_of_mem hn)))

/-- A voice has one node. -/
theorem node_unique (h : Partitioned v) {n n' : VoiceNode} (hn : n ∈ v.playingVoices)
    (hn' : n' ∈ v.playingVoices) (heq : n.voice = n'.voice) : n = n' :=
  List.inj_on_of_nodup_map h.nodup_voices hn hn' heq

end Partitioned

/-! ## `compute` -/

section
variable {silent : ℕ → Bool} {released free : List ℕ} {removed nodes : List VoiceNode}

/-- What the loop of `compute` makes of the containers. -/
theorem foldl_freeStep (hnodes : (nodes.map VoiceNode.voice).Nodup) (hreleased : released.Nodup) :
    nodes.foldl (Voices.freeStep silent) (released, free, removed) =
      (released.filter fun x => !(silent x && x ∈ nodes.map VoiceNode.voice),
        free ++ (nodes.filter fun n => silent n.voice && n.voice ∈ released).map VoiceNode.voice,
        removed ++ nodes.filter fun n => silent n.voice && n.voice ∈ released) := by
  induction nodes generalizing released free removed with
  | nil => simp
  | cons n nodes ih =>
    obtain ⟨hn, hnodes⟩ := List.nodup_cons.mp hnodes
    rw [List.foldl_cons]
    by_cases hfree : silent n.voice = true ∧ n.voice ∈ released
    · have hstep : Voices.freeStep silent (released, free, removed) n =
          (released.erase n.voice, free ++ [n.voice], removed ++ [n]) := if_pos hfree
      have hother : (nodes.filter fun m => silent m.voice && m.voice ∈ released.erase n.voice) =
          nodes.filter fun m => silent m.voice && m.voice ∈ released := by
        refine List.filter_congr fun m hm => ?_
        have hne : m.voice ≠ n.voice := fun heq => hn (heq ▸ List.mem_map_of_mem hm)
        simp [List.mem_erase_of_ne hne]
      rw [hstep, ih hnodes (hreleased.erase _), hother, hreleased.erase_eq_filter,
        List.filter_filter]
      have hkept : (released.filter fun x =>
            !(silent x && decide (x ∈ nodes.map VoiceNode.voice)) && x != n.voice) =
          released.filter fun x =>
            !(silent x && decide (x ∈ (n :: nodes).map VoiceNode.voice)) := by
        refine List.filter_congr fun x _ => ?_
        by_cases hx : x = n.voice
        · simp [hx, hfree.1]
        · simp [hx]
      rw [hkept]
      simp [hfree]
    · have hstep : Voices.freeStep silent (released, free, removed) n =
          (released, free, removed) := if_neg hfree
      rw [hstep, ih hnodes hreleased]
      have hkept : (released.filter fun x =>
            !(silent x && decide (x ∈ nodes.map VoiceNode.voice))) =
          released.filter fun x =>
            !(silent x && decide (x ∈ (n :: nodes).map VoiceNode.voice)) := by
        refine List.filter_congr fun x hx => ?_
        by_cases heq : x = n.voice
        · have hloud : silent n.voice = false := by
            subst heq
            simpa [hx] using hfree
          simp [heq, hloud]
        · simp [heq]
      rw [hkept]
      have hskip : (silent n.voice && decide (n.voice ∈ released)) = false := by
        simpa using hfree
      simp [hskip]

theorem Voices.kept_setPrevFreq (v : Voices) (x : ℕ) (val : ℚ) (y : ℕ) :
    (v.controls y).Kept ((v.setControls x (·.setPrevFreq val)).controls y) := by
  show (v.controls y).Kept (Function.update v.controls x _ y)
  by_cases hy : y = x
  · rw [hy, Function.update_self]
    exact .setPrevFreq _ val
  · rw [Function.update_of_ne hy]
    exact .refl _

/-- The loop over the removed nodes. -/
theorem foldl_remove (removed : List VoiceNode) (v : Voices) :
    (removed.foldl (Voices.remove t) v).playingVoices = v.playingVoices.diff removed ∧
      (removed.foldl (Voices.remove t) v).releasedVoices = v.releasedVoices ∧
      (removed.foldl (Voices.remove t) v).freeVoices = v.freeVoices ∧
      (removed.foldl (Voices.remove t) v).log = v.log ∧
      ∀ x, (v.controls x).Kept ((removed.foldl (Voices.remove t) v).controls x) := by
  induction removed generalizing v with
  | nil => exact ⟨(List.diff_nil _).symm, rfl, rfl, rfl, fun _ => .refl _⟩
  | cons n removed ih =>
    obtain ⟨hplaying, hreleased, hfree, hlog, hkept⟩ := ih (v.remove t n)
    refine ⟨?_, hreleased, hfree, hlog, fun x => ?_⟩
    · rw [List.foldl_cons, hplaying, List.diff_cons]
      rfl
    · exact (Voices.kept_setPrevFreq v n.voice _ x).trans (hkept x)

/-- What `compute` makes of the containers: the voices that are silent and released are freed, and
only previous frequencies are set. -/
structure Freed (silent : ℕ → Bool) (v v' : Voices) : Prop where
  playing : v'.playingVoices =
    v.playingVoices.filter fun n => !(silent n.voice && n.voice ∈ v.releasedVoices)
  released : v'.releasedVoices =
    v.releasedVoices.filter fun x => !(silent x && x ∈ v.playingVoices.map VoiceNode.voice)
  free : v'.freeVoices = v.freeVoices ++ (v.playingVoices.filter fun n =>
    silent n.voice && n.voice ∈ v.releasedVoices).map VoiceNode.voice
  log : v'.log = v.log
  kept : ∀ x, (v.controls x).Kept (v'.controls x)

theorem Partitioned.freeSilent (h : Partitioned v) (silent : ℕ → Bool) :
    Freed silent v (v.freeSilent t silent) := by
  have hloop : v.playingVoices.foldl (Voices.freeStep silent) (v.releasedVoices, v.freeVoices, []) =
      _ := foldl_freeStep h.nodup_voices h.nodup
  obtain ⟨hplaying, hreleased, hfree, hlog, hkept⟩ := foldl_remove (t := t)
    (v.playingVoices.filter fun n => silent n.voice && decide (n.voice ∈ v.releasedVoices))
    { v with
      releasedVoices := v.releasedVoices.filter fun x =>
        !(silent x && decide (x ∈ v.playingVoices.map VoiceNode.voice))
      freeVoices := v.freeVoices ++ (v.playingVoices.filter fun n =>
        silent n.voice && decide (n.voice ∈ v.releasedVoices)).map VoiceNode.voice }
  rw [List.nil_append] at hloop
  rw [Voices.freeSilent, hloop]
  refine ⟨?_, hreleased, hfree, hlog, hkept⟩
  show (List.foldl (Voices.remove t) _ _).playingVoices = _
  rw [hplaying, h.nodup_playing.sdiff_eq_filter]
  refine List.filter_congr fun n hn => ?_
  simp [List.mem_filter, hn]

variable {x : ℕ}

/-- The voices that play on. -/
theorem Freed.mem_playing (hf : Freed silent v v') {n : VoiceNode} :
    n ∈ v'.playingVoices ↔
      n ∈ v.playingVoices ∧ ¬ (silent n.voice = true ∧ n.voice ∈ v.releasedVoices) := by
  rw [hf.playing, List.mem_filter]
  refine and_congr_right fun _ => ?_
  cases silent n.voice <;> simp

/-- A voice that plays on is released if it was. -/
theorem Freed.mem_released (hf : Freed silent v v') {n : VoiceNode} (hn : n ∈ v'.playingVoices) :
    n.voice ∈ v'.releasedVoices ↔ n.voice ∈ v.releasedVoices := by
  obtain ⟨hplays, hnot⟩ := hf.mem_playing.mp hn
  have hvoice : n.voice ∈ v.playingVoices.map VoiceNode.voice := List.mem_map_of_mem hplays
  rw [hf.released, List.mem_filter]
  constructor
  · exact And.left
  · intro hr
    refine ⟨hr, ?_⟩
    have hloud : silent n.voice = false := by simpa [hr] using hnot
    simp [hloud]

/-- A free voice was free, or played and was released. -/
theorem Freed.mem_free (hf : Freed silent v v') :
    x ∈ v'.freeVoices ↔ x ∈ v.freeVoices ∨
      (x ∈ v.playingVoices.map VoiceNode.voice ∧ silent x = true ∧ x ∈ v.releasedVoices) := by
  rw [hf.free, List.mem_append, List.mem_map, List.mem_map]
  refine or_congr_right ⟨?_, ?_⟩
  · rintro ⟨n, hn, rfl⟩
    obtain ⟨hplays, hs⟩ := List.mem_filter.mp hn
    have hs : silent n.voice = true ∧ n.voice ∈ v.releasedVoices := by simpa using hs
    exact ⟨⟨n, hplays, rfl⟩, hs⟩
  · rintro ⟨⟨n, hplays, rfl⟩, hs⟩
    exact ⟨n, List.mem_filter.mpr ⟨hplays, by simpa using hs⟩, rfl⟩

theorem Partitioned.freed (h : Partitioned v) (hf : Freed silent v v') : Partitioned v' := by
  refine ⟨?_, ?_, ?_⟩
  · refine List.Perm.trans ?_ h.perm
    rw [hf.free, hf.playing, List.append_assoc, ← List.map_append]
    refine List.Perm.append_left _ (List.Perm.map _ ?_)
    exact List.filter_append_perm _ _
  · rw [hf.released]
    exact h.nodup.filter _
  · intro y hy
    rw [hf.released, List.mem_filter] at hy
    obtain ⟨hyr, hkept⟩ := hy
    obtain ⟨n, hn, rfl⟩ := List.mem_map.mp (h.plays y hyr)
    refine List.mem_map.mpr ⟨n, hf.mem_playing.mpr ⟨hn, ?_⟩, rfl⟩
    rintro ⟨hs, -⟩
    rw [hs] at hkept
    have hmem : n.voice ∈ v.playingVoices.map VoiceNode.voice := List.mem_map_of_mem hn
    simp [hmem] at hkept

end

/-! ## Events -/

/-- A note on is given a voice that plays only this note, and no other container changes. -/
structure Reserved (note x : ℕ) (v v' : Voices) : Prop where
  playing : ∀ n, n ∈ v'.playingVoices ↔ n = ⟨note, x⟩ ∨ (n ∈ v.playingVoices ∧ n.voice ≠ x)
  released : v'.releasedVoices = v.releasedVoices
  free : ∀ y, y ∈ v'.freeVoices ↔ y ∈ v.freeVoices ∧ y ≠ x
  log : v'.log = v.log
  kept : ∀ y, (v.controls y).Kept (v'.controls y)
  partitioned : Partitioned v'

/-- The voice of a note on, free or the first one that plays. -/
theorem Partitioned.reserve (h : Partitioned v) (note : ℕ) :
    ∃ x v', v.reserve t note = some (x, v') ∧ Reserved note x v v' ∧
      (x ∈ v.freeVoices ∨
        v.freeVoices = [] ∧ ∃ front, v.playingVoices.head? = some front ∧ front.voice = x) := by
  cases hfree : v.freeVoices with
  | cons x free =>
    have hx : x ∈ v.freeVoices := hfree ▸ List.mem_cons_self
    refine ⟨x, { v with freeVoices := free, playingVoices := v.playingVoices ++ [⟨note, x⟩] }, ?_,
      ⟨fun n => ?_, rfl, fun y => ?_, rfl, fun _ => .refl _, ⟨?_, h.nodup, fun y hy => ?_⟩⟩,
      Or.inl List.mem_cons_self⟩
    · rw [Voices.reserve, hfree]
    · show n ∈ v.playingVoices ++ [VoiceNode.mk note x] ↔ _
      rw [List.mem_append, List.mem_singleton]
      constructor
      · intro hn
        rcases hn with hn | hn
        · refine Or.inr ⟨hn, fun heq => h.not_mem_playing hx ?_⟩
          exact heq ▸ List.mem_map_of_mem hn
        · exact Or.inl hn
      · intro hn
        rcases hn with hn | ⟨hn, -⟩
        · exact Or.inr hn
        · exact Or.inl hn
    · show y ∈ free ↔ _
      have hnodup := (List.nodup_append.mp h.nodup_all).1
      rw [hfree] at hnodup ⊢
      have hnot : x ∉ free := (List.nodup_cons.mp hnodup).1
      constructor
      · intro hy
        exact ⟨List.mem_cons_of_mem _ hy, fun heq => hnot (heq ▸ hy)⟩
      · intro hy
        rcases List.mem_cons.mp hy.1 with heq | hmem
        · exact absurd heq hy.2
        · exact hmem
    · -- the voice goes from the front of the first list to the end of the second one
      have hperm := h.perm
      rw [hfree] at hperm
      refine List.Perm.trans ?_ hperm
      show (free ++ (v.playingVoices ++ [VoiceNode.mk note x]).map VoiceNode.voice).Perm _
      rw [List.map_append, ← List.append_assoc]
      exact List.perm_append_singleton x _
    · show y ∈ (v.playingVoices ++ [VoiceNode.mk note x]).map VoiceNode.voice
      rw [List.map_append]
      exact List.mem_append_left _ (h.plays y hy)
  | nil =>
    have hperm := h.perm
    rw [hfree, List.nil_append] at hperm
    cases hplaying : v.playingVoices with
    | nil =>
      rw [hplaying] at hperm
      exact absurd hperm.length_eq (by decide)
    | cons front playing =>
      have hnodup := h.nodup_voices
      rw [hplaying, List.map_cons] at hnodup hperm
      have hnot := (List.nodup_cons.mp hnodup).1
      refine ⟨front.voice,
        { v.setControls front.voice (·.setPrevFreq (t.midiToFreq front.note)) with
          playingVoices := playing ++ [⟨note, front.voice⟩] }, ?_,
        ⟨fun n => ?_, rfl, fun y => ?_, rfl, fun y => ?_, ⟨?_, h.nodup, fun y hy => ?_⟩⟩,
        Or.inr ⟨rfl, front, rfl, rfl⟩⟩
      · rw [Voices.reserve, hfree, hplaying]
      · show n ∈ playing ++ [VoiceNode.mk note front.voice] ↔ _
        rw [List.mem_append, List.mem_singleton, hplaying, List.mem_cons]
        constructor
        · intro hn
          rcases hn with hn | hn
          · refine Or.inr ⟨Or.inr hn, fun heq => hnot ?_⟩
            exact heq ▸ List.mem_map_of_mem hn
          · exact Or.inl hn
        · intro hn
          rcases hn with hn | ⟨hn | hn, hne⟩
          · exact Or.inr hn
          · exact absurd (congrArg VoiceNode.voice hn) hne
          · exact Or.inl hn
      · show y ∈ v.freeVoices ↔ _
        rw [hfree]
        simp
      · exact v.kept_setPrevFreq front.voice _ y
      · refine List.Perm.trans ?_ hperm
        show (v.freeVoices ++ (playing ++ [VoiceNode.mk note front.voice]).map _).Perm _
        rw [hfree, List.nil_append, List.map_append]
        exact List.perm_append_singleton front.voice _
      · show y ∈ (playing ++ [VoiceNode.mk note front.voice]).map VoiceNode.voice
        have hmem := h.plays y hy
        rw [hplaying, List.map_cons, List.mem_cons] at hmem
        rw [List.map_append, List.mem_append]
        rcases hmem with heq | hmem
        · exact Or.inr (heq ▸ List.mem_cons_self)
        · exact Or.inl hmem

/-- The voice of the last node of a note. -/
def lastOf (note : ℕ) (nodes : List VoiceNode) : Option ℕ :=
  (nodes.filter fun n => note = n.note).getLast?.map VoiceNode.voice

section
variable {note : ℕ} {released : List ℕ} {cur : Option ℕ} {found : Bool} {nodes : List VoiceNode}

/-- What the loop of a note off makes: the voices of the note are released, `currentVoice` is that
of the last node, and `voiceFound` tells whether one of them was not released. -/
structure ReleaseSpec (note : ℕ) (nodes : List VoiceNode) (released : List ℕ) (cur : Option ℕ)
    (found : Bool) (r : List ℕ × Option ℕ × Bool) : Prop where
  mem : ∀ x, x ∈ r.1 ↔ x ∈ released ∨ ∃ n ∈ nodes, n.note = note ∧ n.voice = x
  nodup : released.Nodup → r.1.Nodup
  current : r.2.1 = (lastOf note nodes).or cur
  found : r.2.2 = true ↔ found = true ∨ ∃ n ∈ nodes, n.note = note ∧ n.voice ∉ released

theorem releaseSpec (note : ℕ) (nodes : List VoiceNode) (released : List ℕ) (cur : Option ℕ)
    (found : Bool) :
    ReleaseSpec note nodes released cur found
      (nodes.foldl (Voices.releaseStep note) (released, cur, found)) := by
  induction nodes generalizing released cur found with
  | nil => exact ⟨by simp, id, rfl, by simp⟩
  | cons n nodes ih =>
    rw [List.foldl_cons, Voices.releaseStep]
    have hlast : note = n.note → (lastOf note (n :: nodes)).or cur =
        (lastOf note nodes).or (some n.voice) := by
      intro heq
      have hfilter : ((n :: nodes).filter fun m => decide (note = m.note)) =
          n :: nodes.filter fun m => decide (note = m.note) :=
        List.filter_cons_of_pos (by simpa using heq)
      rw [lastOf, lastOf, hfilter, List.getLast?_cons]
      cases (nodes.filter fun m => decide (note = m.note)).getLast? <;> rfl
    by_cases hnote : note = n.note
    · rw [if_pos hnote]
      by_cases hr : n.voice ∈ released
      · rw [if_pos hr]
        obtain ⟨hmem, hnodup, hcur, hfound⟩ := ih released (some n.voice) found
        refine ⟨fun x => ?_, hnodup, hcur.trans (hlast hnote).symm, ?_⟩
        · rw [hmem]
          grind
        · rw [hfound]
          simp [hr]
      · rw [if_neg hr]
        obtain ⟨hmem, hnodup, hcur, hfound⟩ := ih (released ++ [n.voice]) (some n.voice) true
        refine ⟨fun x => ?_, fun hr' => hnodup ?_, hcur.trans (hlast hnote).symm, ?_⟩
        · rw [hmem]
          grind
        · exact List.nodup_append.mpr ⟨hr', List.nodup_singleton _, by grind⟩
        · simp only [hfound, true_or, true_iff]
          exact Or.inr ⟨n, List.mem_cons_self, hnote.symm, hr⟩
    · rw [if_neg hnote]
      obtain ⟨hmem, hnodup, hcur, hfound⟩ := ih released cur found
      refine ⟨fun x => ?_, hnodup, hcur.trans ?_, ?_⟩
      · rw [hmem]
        grind
      · rw [lastOf, lastOf, List.filter_cons_of_neg (by simpa using hnote)]
      · rw [hfound]
        grind

end

/-- A note off releases the voices of the note. -/
theorem Voices.release_spec (v : Voices) (note : ℕ) :
    ReleaseSpec note v.playingVoices v.releasedVoices none false (v.release note) :=
  releaseSpec note v.playingVoices v.releasedVoices none false

theorem Partitioned.release (h : Partitioned v) (note : ℕ) :
    Partitioned { v with releasedVoices := (v.release note).1 } := by
  have hspec := v.release_spec note
  refine ⟨h.perm, hspec.nodup h.nodup, fun x hx => ?_⟩
  rcases (hspec.mem x).mp hx with hx | ⟨n, hn, -, rfl⟩
  · exact h.plays x hx
  · exact List.mem_map_of_mem hn

/-- The loop of `allNotesOff`: all voices that play are released. -/
theorem mem_releaseAll (nodes : List VoiceNode) (released : List ℕ) (hnodup : released.Nodup) :
    (nodes.foldl (fun released n => if n.voice ∈ released then released else released ++ [n.voice])
        released).Nodup ∧
      ∀ x, x ∈ nodes.foldl
          (fun released n => if n.voice ∈ released then released else released ++ [n.voice])
          released ↔ x ∈ released ∨ x ∈ nodes.map VoiceNode.voice := by
  induction nodes generalizing released with
  | nil => exact ⟨hnodup, by simp⟩
  | cons n nodes ih =>
    rw [List.foldl_cons]
    by_cases hr : n.voice ∈ released
    · rw [if_pos hr]
      obtain ⟨hnew, hmem⟩ := ih released hnodup
      refine ⟨hnew, fun x => ?_⟩
      rw [hmem x]
      grind
    · rw [if_neg hr]
      obtain ⟨hnew, hmem⟩ := ih (released ++ [n.voice])
        (List.nodup_append.mpr ⟨hnodup, List.nodup_singleton _, by grind⟩)
      refine ⟨hnew, fun x => ?_⟩
      rw [hmem x]
      grind

theorem Partitioned.allNotesOff (h : Partitioned v) : Partitioned v.allNotesOff := by
  obtain ⟨hnodup, hmem⟩ := mem_releaseAll v.playingVoices v.releasedVoices h.nodup
  refine ⟨h.perm, hnodup, fun x hx => ?_⟩
  rcases (hmem x).mp hx with hx | hx
  · exact h.plays x hx
  · exact hx

/-- Controls and records are no part of the containers. -/
theorem Partitioned.of_containers (h : Partitioned v) (hp : v'.playingVoices = v.playingVoices)
    (hr : v'.releasedVoices = v.releasedVoices) (hf : v'.freeVoices = v.freeVoices) :
    Partitioned v' := by
  refine ⟨?_, ?_, ?_⟩
  · rw [hf, hp]
    exact h.perm
  · rw [hr]
    exact h.nodup
  · rw [hr, hp]
    exact h.plays

theorem Partitioned.noteEnd (h : Partitioned v) (note : ℕ) (found : Option ℕ × Bool) :
    Partitioned (v.noteEnd note found) := by
  obtain ⟨_ | x, _ | _⟩ := found <;> exact h.of_containers rfl rfl rfl

/-! ## The gates -/

/-- In these events a note ends. -/
def Ends (note : ℕ) (events : List Applied) : Prop :=
  .noteOff note ∈ events ∨ .allNotesOff ∈ events

/-- The events since a voice was given its note. -/
def Since (log : List Applied) (n : VoiceNode) (events : List Applied) : Prop :=
  ∃ velocity before, log = before ++ .noteOn n.note velocity n.voice :: events ∧
    ∀ note velocity', .noteOn note velocity' n.voice ∉ events

/-- The gates and the released voices follow the events. The gate of the voice `x` is left out:
it is about to change. -/
structure Following (x : Option ℕ) (log : List Applied) (v : Voices) : Prop where
  gated : ∀ y, (v.controls y).Gated
  gate : ∀ n ∈ v.playingVoices, some n.voice ≠ x →
    ((v.controls n.voice).gate = 0 ↔ n.voice ∈ v.releasedVoices)
  free : ∀ y ∈ v.freeVoices, some y ≠ x → (v.controls y).gate = 0
  ended : ∀ n ∈ v.playingVoices,
    ∃ events, Since log n events ∧ (n.voice ∈ v.releasedVoices ↔ Ends n.note events)

theorem Since.append {log events : List Applied} {n : VoiceNode} {a : Applied}
    (h : Since log n events) (ha : ∀ note velocity, a ≠ .noteOn note velocity n.voice) :
    Since (log ++ [a]) n (events ++ [a]) := by
  obtain ⟨velocity, before, rfl, hnone⟩ := h
  refine ⟨velocity, before, by simp, fun note velocity' hmem => ?_⟩
  rcases List.mem_append.mp hmem with hmem | hmem
  · exact hnone note velocity' hmem
  · exact ha note velocity' (List.mem_singleton.mp hmem).symm

section
variable {x : Option ℕ} {log : List Applied} {silent : ℕ → Bool}

theorem Following.freed (h : Following x log v) (hf : Freed silent v v') : Following x log v' := by
  refine ⟨fun y => (hf.kept y).gated (h.gated y), fun n hn hx => ?_, fun y hy hx => ?_,
    fun n hn => ?_⟩
  · rw [(hf.kept _).gate (h.gated _), hf.mem_released hn]
    exact h.gate n (hf.mem_playing.mp hn).1 hx
  · rw [(hf.kept _).gate (h.gated _)]
    rcases hf.mem_free.mp hy with hy | ⟨hplays, -, hr⟩
    · exact h.free y hy hx
    · obtain ⟨n, hn, rfl⟩ := List.mem_map.mp hplays
      exact (h.gate n hn hx).mpr hr
  · obtain ⟨events, hsince, hended⟩ := h.ended n (hf.mem_playing.mp hn).1
    exact ⟨events, hsince, (hf.mem_released hn).trans hended⟩

/-- A note on is given a voice that is not released. -/
theorem Following.reserve {note y : ℕ} (h : Following none log v) (hr : Reserved note y v v')
    (hnot : y ∉ v.releasedVoices) (velocity : ℕ) :
    Following (some y) (log ++ [.noteOn note velocity y]) v' := by
  refine ⟨fun z => (hr.kept z).gated (h.gated z), fun n hn hx => ?_, fun z hz _ => ?_,
    fun n hn => ?_⟩
  · rcases (hr.playing n).mp hn with rfl | ⟨hn, -⟩
    · exact absurd rfl hx
    · rw [(hr.kept _).gate (h.gated _), hr.released]
      exact h.gate n hn (by simp)
  · rw [(hr.kept _).gate (h.gated _)]
    exact h.free z ((hr.free z).mp hz).1 (by simp)
  · rw [hr.released]
    rcases (hr.playing n).mp hn with rfl | ⟨hn, hne⟩
    · refine ⟨[], ⟨velocity, log, rfl, by simp⟩, ?_⟩
      exact ⟨fun hmem => absurd hmem hnot, fun hends => by simp [Ends] at hends⟩
    · obtain ⟨events, hsince, hended⟩ := h.ended n hn
      refine ⟨events ++ [.noteOn note velocity y], hsince.append fun note' velocity' heq => ?_, ?_⟩
      · exact hne (Applied.noteOn.inj heq).2.2.symm
      · rw [hended]
        simp [Ends]

/-- The note starts: the gate of its voice is opened. -/
theorem Following.noteStart {note velocity y : ℕ} (h : Following (some y) log v)
    (hlog : log = v.log ++ [.noteOn note velocity y]) (hnot : y ∉ v.releasedVoices)
    (hfree : y ∉ v.freeVoices) :
    Following none (v.noteStart t y note velocity).log (v.noteStart t y note velocity) := by
  have hself : (v.noteStart t y note velocity).controls y =
      (((v.controls y).setFreq (t.midiToFreq note)).setGain (t.gain velocity)).setGate 1 :=
    Function.update_self ..
  have hother : ∀ z ≠ y, (v.noteStart t y note velocity).controls z = v.controls z :=
    fun z hz => Function.update_of_ne hz ..
  have hfreq : ((v.controls y).setFreq (t.midiToFreq note)).Gated := (h.gated y).setAny _ _
  have hset : (((v.controls y).setFreq (t.midiToFreq note)).setGain (t.gain velocity)).Gated :=
    hfreq.setAny _ _
  subst hlog
  refine ⟨fun z => ?_, fun n hn _ => ?_, fun z hz _ => ?_, h.ended⟩
  · by_cases hz : z = y
    · rw [hz, hself]
      exact hset.setAny _ 1
    · rw [hother z hz]
      exact h.gated z
  · show ((v.noteStart t y note velocity).controls n.voice).gate = 0 ↔
      n.voice ∈ v.releasedVoices
    by_cases heq : n.voice = y
    · have hopen := hset.gate_open
      rw [heq, hself]
      exact iff_of_false (fun hzero => one_ne_zero (hopen.symm.trans hzero)) hnot
    · rw [hother _ heq]
      exact h.gate n hn (by simpa using heq)
  · have hne : z ≠ y := fun heq => hfree (heq ▸ hz)
    rw [hother z hne]
    exact h.free z hz (by simpa using hne)

/-- The voice whose gate a note off closes. -/
def closing (found : Option ℕ × Bool) : Option ℕ := if found.2 then found.1 else none

/-- A note off releases the voices of its note, of which at most the last one was not released. -/
theorem Following.release {note : ℕ} (hp : Partitioned v) (h : Following none log v)
    (hlast : ∀ n ∈ v.playingVoices, n.note = note → n.voice ∉ v.releasedVoices →
      lastOf note v.playingVoices = some n.voice) :
    Following (closing (v.release note).2) (log ++ [.noteOff note])
      { v with releasedVoices := (v.release note).1 } := by
  have hspec := v.release_spec note
  refine ⟨h.gated, fun n hn hx => ?_, fun z hz _ => h.free z hz (by simp), fun n hn => ?_⟩
  · show (v.controls n.voice).gate = 0 ↔ n.voice ∈ (v.release note).1
    rw [h.gate n hn (by simp), hspec.mem]
    constructor
    · exact Or.inl
    · intro hr
      rcases hr with hr | ⟨n', hn', hnote, hvoice⟩
      · exact hr
      · -- the node of the note off is this one, so it is the last one and its gate is closed
        by_contra hnot
        obtain rfl := hp.node_unique hn' hn hvoice
        refine hx ?_
        have hfound : (v.release note).2.2 = true := hspec.found.mpr (Or.inr ⟨n', hn', hnote, hnot⟩)
        rw [closing, if_pos hfound, hspec.current, hlast n' hn' hnote hnot]
        rfl
  · obtain ⟨events, hsince, hended⟩ := h.ended n hn
    refine ⟨events ++ [.noteOff note], hsince.append (by simp), ?_⟩
    show n.voice ∈ (v.release note).1 ↔ _
    rw [hspec.mem, hended]
    have hnode : (∃ n' ∈ v.playingVoices, n'.note = note ∧ n'.voice = n.voice) ↔ n.note = note := by
      constructor
      · intro hex
        obtain ⟨n', hn', hnote, hvoice⟩ := hex
        rwa [← hp.node_unique hn' hn hvoice]
      · exact fun hnote => ⟨n, hn, hnote, rfl⟩
    rw [hnode]
    simp only [Ends, List.mem_append, List.mem_singleton, Applied.noteOff.injEq, reduceCtorEq,
      or_false]
    grind

/-- The note ends: the gate of its voice is closed. -/
theorem Following.noteEnd {note : ℕ} {found : Option ℕ × Bool}
    (h : Following (closing found) log v) (hlog : log = v.log ++ [.noteOff note])
    (hreleased : ∀ n ∈ v.playingVoices, some n.voice = closing found →
      n.voice ∈ v.releasedVoices) :
    Following none (v.noteEnd note found).log (v.noteEnd note found) := by
  subst hlog
  obtain ⟨_ | y, _ | _⟩ := found
  · exact ⟨h.gated, h.gate, h.free, h.ended⟩
  · exact ⟨h.gated, h.gate, h.free, h.ended⟩
  · exact ⟨h.gated, h.gate, h.free, h.ended⟩
  · have hself : (v.noteEnd note (some y, true)).controls y = (v.controls y).setGate 0 :=
      Function.update_self ..
    have hother : ∀ z ≠ y, (v.noteEnd note (some y, true)).controls z = v.controls z :=
      fun z hz => Function.update_of_ne hz ..
    refine ⟨fun z => ?_, fun n hn _ => ?_, fun z hz _ => ?_, h.ended⟩
    · by_cases hz : z = y
      · rw [hz, hself]
        exact (h.gated y).setAny _ 0
      · rw [hother z hz]
        exact h.gated z
    · show ((v.noteEnd note (some y, true)).controls n.voice).gate = 0 ↔
        n.voice ∈ v.releasedVoices
      by_cases heq : n.voice = y
      · have hr := hreleased n hn (congrArg some heq)
        rw [heq, hself]
        exact iff_of_true (h.gated y).gate_close (heq ▸ hr)
      · rw [hother _ heq]
        exact h.gate n hn (by simpa [closing] using heq)
    · by_cases heq : z = y
      · rw [heq, hself]
        exact (h.gated y).gate_close
      · rw [hother z heq]
        exact h.free z hz (by simpa [closing] using heq)

/-- All gates are closed and all voices that play are released. -/
theorem Following.allNotesOff (hp : Partitioned v) (h : Following none v.log v) :
    Following none v.allNotesOff.log v.allNotesOff := by
  obtain ⟨-, hmem⟩ := mem_releaseAll v.playingVoices v.releasedVoices hp.nodup
  have hreleased : ∀ n ∈ v.playingVoices, n.voice ∈ v.allNotesOff.releasedVoices :=
    fun n hn => (hmem n.voice).mpr (Or.inr (List.mem_map_of_mem hn))
  refine ⟨fun z => ?_, fun n hn _ => ?_, fun z hz _ => ?_, fun n hn => ?_⟩
  · show Controls.Gated (if z < maxPolyphony then _ else v.controls z)
    split
    · exact (h.gated z).setAny _ 0
    · exact h.gated z
  · show (if n.voice < maxPolyphony then _ else v.controls n.voice).gate = 0 ↔ _
    rw [if_pos (hp.lt hn)]
    exact iff_of_true (h.gated _).gate_close (hreleased n hn)
  · show (if z < maxPolyphony then _ else v.controls z).gate = 0
    split
    · exact (h.gated z).gate_close
    · exact h.free z hz (by simp)
  · obtain ⟨events, hsince, -⟩ := h.ended n hn
    have hnew : Since (v.log ++ [.allNotesOff]) n (events ++ [.allNotesOff]) :=
      hsince.append fun _ _ => Applied.noConfusion
    refine ⟨events ++ [Applied.allNotesOff], hnew, ?_⟩
    exact ⟨fun _ => by simp [Ends], fun _ => hreleased n hn⟩

theorem Following.bendPitch (h : Following none v.log v) (bend : ℚ) :
    Following none (v.bendPitch bend).log (v.bendPitch bend) := by
  have hcontrols : ∀ z, (v.bendPitch bend).controls z =
      if z < maxPolyphony then (v.controls z).setPitchBend bend else v.controls z := fun _ => rfl
  have hgate : ∀ z, ((v.bendPitch bend).controls z).gate = (v.controls z).gate := by
    intro z
    rw [hcontrols]
    split
    · exact Controls.gate_setAny_of_ne (h.gated z).pitchbend bend
    · rfl
  refine ⟨fun z => ?_, fun n hn hx => ?_, fun z hz hx => ?_, h.ended⟩
  · rw [hcontrols]
    split
    · exact (h.gated z).setAny _ bend
    · exact h.gated z
  · rw [hgate]
    exact h.gate n hn hx
  · rw [hgate]
    exact h.free z hz hx

end

/-! ## One event -/

/-- What a note on needs: the voice that is taken from another note is not released. -/
def NoteOnMeets (v : Voices) : Prop :=
  v.freeVoices = [] → ∀ front, v.playingVoices.head? = some front →
    front.voice ∉ v.releasedVoices

/-- What a note off needs: of the voices of the note only the last one may not be released yet. -/
def NoteOffMeets (v : Voices) (note : ℕ) : Prop :=
  ∀ n ∈ v.playingVoices, n.note = note → n.voice ∉ v.releasedVoices →
    lastOf note v.playingVoices = some n.voice

/-- What an event needs. -/
def EventMeets (v : Voices) (note velocity : ℕ) : Prop :=
  if 0 < velocity then NoteOnMeets v else NoteOffMeets v note

/-- A computation that returns. -/
def total (render : Outputs → ℤ → Voices → W → W × (ℕ → Bool)) : Run W :=
  fun out count v w => some (render out count v w)

section
variable {run : Run W} {out : Outputs} {count previousDelta delta : ℤ} {note velocity : ℕ}
  {w w' : W}

/-- What `compute` makes of the voices. -/
theorem Partitioned.compute (h : Partitioned v) (hc : v.compute t run out count w = some (v', w')) :
    ∃ silent, Freed silent v v' := by
  rw [Voices.compute] at hc
  cases hrun : run out count v w with
  | none =>
    rw [hrun] at hc
    cases hc
  | some r =>
    rw [hrun] at hc
    cases hc
    exact ⟨r.2, h.freeSilent r.2⟩

/-- What an event consists of. -/
theorem Voices.playEvent_eq_some
    (h : v.playEvent t run previousDelta delta note velocity w = some (v', w')) :
    (0 < velocity ∧ ∃ x v₁ v₂, v.reserve t note = some (x, v₁) ∧
      v₁.compute t run (.shifted previousDelta) (delta - previousDelta) w = some (v₂, w') ∧
      v' = v₂.noteStart t x note velocity) ∨
    (velocity = 0 ∧ ∃ v₂, Voices.compute t { v with releasedVoices := (v.release note).1 } run
        (.shifted previousDelta) (delta - previousDelta) w = some (v₂, w') ∧
      v' = v₂.noteEnd note (v.release note).2) := by
  rw [Voices.playEvent] at h
  split at h
  · next hvelocity =>
    refine Or.inl ⟨hvelocity, ?_⟩
    split at h
    · cases h
    · next x v₁ hreserve =>
      split at h
      · cases h
      · next v₂ w₂ hcompute =>
        cases h
        exact ⟨x, v₁, v₂, hreserve, hcompute, rfl⟩
  · next hvelocity =>
    refine Or.inr ⟨by omega, ?_⟩
    split at h
    · cases h
    · next v₂ w₂ hcompute =>
      cases h
      exact ⟨v₂, hcompute, rfl⟩

/-- What an event makes of the voices. -/
theorem Partitioned.playEvent (h : Partitioned v)
    (hc : v.playEvent t run previousDelta delta note velocity w = some (v', w')) :
    Partitioned v' ∧ (Following none v.log v → EventMeets v note velocity →
      Following none v'.log v') := by
  rcases Voices.playEvent_eq_some hc with ⟨hvelocity, x, v₁, v₂, hreserve, hcompute, rfl⟩ |
    ⟨hvelocity, v₂, hcompute, rfl⟩
  · obtain ⟨x', v₁', hreserve', hr, hx⟩ := h.reserve (t := t) note
    cases hreserve.symm.trans hreserve'
    obtain ⟨silent, hf⟩ := hr.partitioned.compute hcompute
    have hp := hr.partitioned.freed hf
    refine ⟨hp.of_containers rfl rfl rfl, fun hfollow hmeets => ?_⟩
    rw [EventMeets, if_pos hvelocity] at hmeets
    have hnot : x ∉ v.releasedVoices := by
      rcases hx with hx | ⟨hnil, front, hfront, rfl⟩
      · exact fun hreleased => h.not_mem_playing hx (h.plays x hreleased)
      · exact hmeets hnil front hfront
    -- the voice plays through `compute`, as it is not released
    have hplays : ⟨note, x⟩ ∈ v₂.playingVoices := by
      refine hf.mem_playing.mpr ⟨(hr.playing _).mpr (Or.inl rfl), fun hs => ?_⟩
      rw [hr.released] at hs
      exact hnot hs.2
    have hnot₂ : x ∉ v₂.releasedVoices := by
      intro hreleased
      have hwas := (hf.mem_released hplays).mp hreleased
      rw [hr.released] at hwas
      exact hnot hwas
    refine ((hfollow.reserve hr hnot velocity).freed hf).noteStart ?_ hnot₂ fun hfree => ?_
    · rw [hf.log, hr.log]
    · exact hp.not_mem_playing hfree (List.mem_map_of_mem hplays)
  · obtain ⟨silent, hf⟩ := (h.release note).compute hcompute
    have hp := (h.release note).freed hf
    refine ⟨hp.noteEnd note _, fun hfollow hmeets => ?_⟩
    rw [EventMeets, if_neg (by omega)] at hmeets
    have hmid := (hfollow.release h hmeets).freed hf
    refine hmid.noteEnd (by rw [hf.log]) fun n hn hclosing => ?_
    rw [hf.mem_released hn]
    have hspec := v.release_spec note
    have hplays := (hf.mem_playing.mp hn).1
    show n.voice ∈ (v.release note).1
    -- the voice whose gate is closed is one of the note
    rw [closing] at hclosing
    split at hclosing
    · rw [hspec.current, Option.or_none, lastOf] at hclosing
      obtain ⟨m, hm, hvoice⟩ := Option.map_eq_some_iff.mp hclosing.symm
      obtain ⟨hmem, hnote⟩ := List.mem_filter.mp (List.mem_of_getLast? hm)
      have hnote : note = m.note := by simpa using hnote
      exact (hspec.mem n.voice).mpr (Or.inr ⟨m, hmem, hnote.symm, hvoice⟩)
    · cases hclosing

end

/-! ## Runs -/

/-- What the events of the loop need, each where it is played. -/
def LoopMeets (t : Tuning) (run : Run W) (sampleFrames : ℤ) :
    List ℕ → List ℕ → List ℤ → ℤ → Voices → W → Prop
  | note :: notes, velocity :: velocities, delta :: deltas, previousDelta, v, w =>
    delta < sampleFrames → EventMeets v note velocity ∧
      ∀ v' w', v.playEvent t run previousDelta delta note velocity w = some (v', w') →
        LoopMeets t run sampleFrames notes velocities deltas delta v' w'
  | _, _, _, _, _, _ => True

/-- What a call needs. -/
def Call.Meets (t : Tuning) (run : Run W) (s : Synth) (w : W) : Call → Prop
  | .processEvents _ => True
  | .processReplacing sampleFrames =>
    LoopMeets t run sampleFrames s.queues.currentNotes s.queues.currentVelocities
      s.queues.currentDeltas 0 s.voices w

/-- What the calls need, each where it is made. -/
def RunMeets (t : Tuning) (run : Run W) : List Call → Synth → W → Prop
  | [], _, _ => True
  | c :: calls, s, w =>
    c.Meets t run s w ∧
      ∀ s' w', c.perform t run s w = some (s', w') → RunMeets t run calls s' w'

/-- The notes of the events, `true` for a note on. -/
def notesOf : List Applied → List (ℕ × Bool)
  | [] => []
  | .noteOn note _ _ :: events => (note, true) :: notesOf events
  | .noteOff note :: events => (note, false) :: notesOf events
  | .allNotesOff :: events => notesOf events

/-- The notes that wait. -/
def waiting (notes velocities : List ℕ) : List (ℕ × Bool) :=
  notes.zip (velocities.map fun velocity => decide (0 < velocity))

theorem notesOf_append (events events' : List Applied) :
    notesOf (events ++ events') = notesOf events ++ notesOf events' := by
  induction events with
  | nil => rfl
  | cons a events ih => cases a <;> simp [notesOf, ih]

/-- The containers hold each voice once, and the notes that were received were applied or wait. -/
structure Conserved (received : List (ℕ × Bool)) (s : Synth) : Prop where
  partitioned : Partitioned s.voices
  velocities : s.queues.currentNotes.length = s.queues.currentVelocities.length
  deltas : s.queues.currentNotes.length = s.queues.currentDeltas.length
  received : notesOf s.voices.log ++
    waiting s.queues.currentNotes s.queues.currentVelocities = received

section
variable (render : Outputs → ℤ → Voices → W → W × (ℕ → Bool))

theorem compute_total (h : Partitioned v) (out : Outputs) (count : ℤ) (w : W) :
    ∃ v' w', v.compute t (total render) out count w = some (v', w') ∧ Partitioned v' ∧
      v'.log = v.log ∧ ∀ x log, Following x log v → Following x log v' := by
  refine ⟨_, _, rfl, ?_⟩
  have hf := h.freeSilent (t := t) (render out count v w).2
  exact ⟨h.freed hf, hf.log, fun x log hfollow => hfollow.freed hf⟩

theorem playEvent_total (h : Partitioned v) (previousDelta delta : ℤ) (note velocity : ℕ) (w : W) :
    ∃ v' w', v.playEvent t (total render) previousDelta delta note velocity w = some (v', w') ∧
      notesOf v'.log = notesOf v.log ++ [(note, decide (0 < velocity))] := by
  by_cases hvelocity : 0 < velocity
  · obtain ⟨x, v₁, hreserve, hr, -⟩ := h.reserve (t := t) note
    obtain ⟨v₂, w₂, hcompute, -, hlog, -⟩ := compute_total (t := t) render
      hr.partitioned (.shifted previousDelta) (delta - previousDelta) w
    refine ⟨v₂.noteStart t x note velocity, w₂, ?_, ?_⟩
    · simp only [Voices.playEvent, if_pos hvelocity, hreserve, hcompute]
    · show notesOf (v₂.log ++ [.noteOn note velocity x]) = _
      rw [notesOf_append, hlog, hr.log, decide_eq_true hvelocity]
      rfl
  · obtain ⟨v₂, w₂, hcompute, -, hlog, -⟩ := compute_total (t := t) render
      (h.release note) (.shifted previousDelta) (delta - previousDelta) w
    refine ⟨v₂.noteEnd note (v.release note).2, w₂, ?_, ?_⟩
    · simp only [Voices.playEvent, if_neg hvelocity, hcompute]
    · show notesOf (v₂.log ++ [.noteOff note]) = _
      rw [notesOf_append, hlog, decide_eq_false hvelocity]
      rfl

/-- The loop keeps the voices. -/
theorem playLoop_spec {notes velocities : List ℕ} {deltas : List ℤ} (h : Partitioned v)
    (hvelocities : notes.length = velocities.length) (hdeltas : notes.length = deltas.length)
    (sampleFrames previousDelta : ℤ) (w : W) :
    ∃ s' w', playLoop t (total render) sampleFrames notes velocities deltas previousDelta v w =
        some (s', w') ∧
      Conserved (notesOf v.log ++ waiting notes velocities) s' ∧
      (Following none v.log v →
        LoopMeets t (total render) sampleFrames notes velocities deltas previousDelta v w →
        Following none s'.voices.log s'.voices) := by
  induction notes generalizing velocities deltas v w previousDelta with
  | nil =>
    obtain ⟨v', w', hcompute, hp, hlog, hfollow⟩ := compute_total (t := t) render h
      (.shifted previousDelta) (sampleFrames - previousDelta) w
    refine ⟨⟨⟨[], velocities, deltas⟩, v'⟩, w', ?_, ⟨hp, hvelocities, hdeltas, ?_⟩,
      fun hv _ => ?_⟩
    · simp only [playLoop, hcompute]
    · show notesOf v'.log ++ _ = _
      rw [hlog]
    · show Following none v'.log v'
      rw [hlog]
      exact hfollow none _ hv
  | cons note notes ih =>
    cases velocities with
    | nil => cases hvelocities
    | cons velocity velocities =>
      cases deltas with
      | nil => cases hdeltas
      | cons delta deltas =>
        by_cases hlater : sampleFrames ≤ delta
        · -- the event is of a later chunk
          obtain ⟨v', w', hcompute, hp, hlog, hfollow⟩ := compute_total (t := t) render h
            .caller sampleFrames w
          refine ⟨⟨⟨note :: notes, velocity :: velocities,
            (delta :: deltas).map (· - sampleFrames)⟩, v'⟩, w', ?_,
            ⟨hp, hvelocities, ?_, ?_⟩, fun hv _ => ?_⟩
          · simp only [playLoop, if_pos hlater, hcompute]
          · show (note :: notes).length = ((delta :: deltas).map (· - sampleFrames)).length
            rw [List.length_map]
            exact hdeltas
          · show notesOf v'.log ++ _ = _
            rw [hlog]
          · show Following none v'.log v'
            rw [hlog]
            exact hfollow none _ hv
        · obtain ⟨v', w', hevent, hnotes⟩ := playEvent_total (t := t) render h
            previousDelta delta note velocity w
          obtain ⟨hp, hfollow⟩ := h.playEvent hevent
          obtain ⟨s', w'', hrun, hconserved, hend⟩ := ih hp
            (Nat.succ.inj hvelocities) (Nat.succ.inj hdeltas) delta w'
          refine ⟨s', w'', ?_, ?_, fun hv hmeets => ?_⟩
          · simp only [playLoop, if_neg hlater, hevent, hrun]
          · rw [hnotes, List.append_assoc] at hconserved
            exact hconserved
          · obtain ⟨hone, hrest⟩ := hmeets (by omega)
            exact hend (hfollow hv hone) (hrest v' w' hevent)

theorem synthProcessReplacing_spec {s : Synth} {received : List (ℕ × Bool)}
    (h : Conserved received s) (sampleFrames : ℤ) (w : W) :
    ∃ s' w', s.synthProcessReplacing t (total render) sampleFrames w = some (s', w') ∧
      Conserved received s' ∧
      (Following none s.voices.log s.voices →
        (Call.processReplacing sampleFrames).Meets t (total render) s w →
        Following none s'.voices.log s'.voices) := by
  by_cases hnotes : s.queues.currentNotes = []
  · obtain ⟨v', w', hcompute, hp, hlog, hfollow⟩ := compute_total (t := t) render h.partitioned
      .caller sampleFrames w
    refine ⟨{ s with voices := v' }, w', ?_, ⟨hp, h.velocities, h.deltas, ?_⟩, fun hv _ => ?_⟩
    · simp only [Synth.synthProcessReplacing, if_pos hnotes, hcompute]
    · show notesOf v'.log ++ _ = _
      rw [hlog]
      exact h.received
    · show Following none v'.log v'
      rw [hlog]
      exact hfollow none _ hv
  · obtain ⟨s', w', hrun, hconserved, hfollow⟩ := playLoop_spec (t := t) render h.partitioned
      h.velocities h.deltas sampleFrames 0 w
    rw [h.received] at hconserved
    refine ⟨s', w', ?_, hconserved, hfollow⟩
    rw [Synth.synthProcessReplacing, if_neg hnotes, hrun]

end

/-- The notes that an event of the host brings. -/
def MidiEvent.notes (e : MidiEvent) : List (ℕ × Bool) :=
  if e.isMidi then
    if e.status &&& 0xf0 = 0x90 then [(e.data1 &&& 0x7f, decide (0 < e.data2 &&& 0x7f))]
    else if e.status &&& 0xf0 = 0x80 then [(e.data1 &&& 0x7f, false)]
    else []
  else []

/-- The notes that a call brings. -/
def Call.notes : Call → List (ℕ × Bool)
  | .processEvents events => events.flatMap MidiEvent.notes
  | .processReplacing _ => []

section
variable {s : Synth} {received : List (ℕ × Bool)}

theorem Conserved.noteOn (h : Conserved received s) (note velocity : ℕ) (delta : ℤ) :
    Conserved (received ++ [(note, decide (0 < velocity))]) (s.noteOn note velocity delta) := by
  refine ⟨h.partitioned, ?_, ?_, ?_⟩
  · simp [Synth.noteOn, h.velocities]
  · simp [Synth.noteOn, h.deltas]
  · rw [← h.received]
    show notesOf s.voices.log ++ waiting (s.queues.currentNotes ++ [note])
      (s.queues.currentVelocities ++ [velocity]) = _
    rw [waiting, List.map_append, List.zip_append (by rw [List.length_map]; exact h.velocities),
      List.append_assoc]
    rfl

theorem Conserved.noteOff (h : Conserved received s) (note : ℕ) (delta : ℤ) :
    Conserved (received ++ [(note, false)]) (s.noteOff note delta) := h.noteOn note 0 delta

/-- An event of the host, one case for each status. -/
theorem Conserved.processEvent (h : Conserved received s) (e : MidiEvent) :
    Conserved (received ++ e.notes) (s.processEvent t e) ∧
      (Following none s.voices.log s.voices →
        Following none (s.processEvent t e).voices.log (s.processEvent t e).voices) := by
  have hsame : Conserved (received ++ []) s := by rwa [List.append_nil]
  unfold MidiEvent.notes Synth.processEvent
  split
  · dsimp only
    split
    · next hon =>
      split
      · exact ⟨h.noteOn _ _ _, id⟩
      · next hvelocity =>
        have hzero : e.data2 &&& 0x7f = 0 := by omega
        rw [hzero]
        exact ⟨h.noteOff _ _, id⟩
    · split
      · exact ⟨h.noteOff _ _, id⟩
      · split
        · split
          · refine ⟨⟨h.partitioned.allNotesOff, h.velocities, h.deltas, ?_⟩,
              fun hv => hv.allNotesOff h.partitioned⟩
            show notesOf (s.voices.log ++ [.allNotesOff]) ++ _ = _
            rw [notesOf_append, List.append_nil, ← h.received]
            simp [notesOf]
          · exact ⟨hsame, id⟩
        · split
          · refine ⟨⟨h.partitioned.of_containers rfl rfl rfl, h.velocities, h.deltas, ?_⟩,
              fun hv => hv.bendPitch _⟩
            rw [List.append_nil]
            exact h.received
          · exact ⟨hsame, id⟩
  · exact ⟨hsame, id⟩

theorem Conserved.processEvents (h : Conserved received s) (events : List MidiEvent) :
    Conserved (received ++ events.flatMap MidiEvent.notes)
        (events.foldl (Synth.processEvent t) s) ∧
      (Following none s.voices.log s.voices →
        Following none (events.foldl (Synth.processEvent t) s).voices.log
          (events.foldl (Synth.processEvent t) s).voices) := by
  induction events generalizing s received with
  | nil =>
    rw [List.flatMap_nil, List.append_nil]
    exact ⟨h, id⟩
  | cons e events ih =>
    obtain ⟨hone, hfollow⟩ := h.processEvent (t := t) e
    obtain ⟨hrest, hfollow'⟩ := ih hone
    rw [List.flatMap_cons, ← List.append_assoc]
    exact ⟨hrest, fun hv => hfollow' (hfollow hv)⟩

/-- A call keeps the voices. -/
theorem Conserved.perform (render : Outputs → ℤ → Voices → W → W × (ℕ → Bool))
    (h : Conserved received s) (c : Call) (w : W) :
    ∃ s' w', c.perform t (total render) s w = some (s', w') ∧
      Conserved (received ++ c.notes) s' ∧
      (Following none s.voices.log s.voices → c.Meets t (total render) s w →
        Following none s'.voices.log s'.voices) := by
  cases c with
  | processEvents events =>
    obtain ⟨hconserved, hfollow⟩ := h.processEvents (t := t) events
    exact ⟨_, w, rfl, hconserved, fun hv _ => hfollow hv⟩
  | processReplacing sampleFrames =>
    obtain ⟨s', w', hrun, hconserved, hfollow⟩ :=
      synthProcessReplacing_spec (t := t) render h sampleFrames w
    refine ⟨s', w', hrun, ?_, hfollow⟩
    rw [Call.notes, List.append_nil]
    exact hconserved

theorem Conserved.runCalls (render : Outputs → ℤ → Voices → W → W × (ℕ → Bool))
    (h : Conserved received s) (calls : List Call) (w : W) :
    ∃ s' w', runCalls t (total render) calls s w = some (s', w') ∧
      Conserved (received ++ calls.flatMap Call.notes) s' ∧
      (Following none s.voices.log s.voices → RunMeets t (total render) calls s w →
        Following none s'.voices.log s'.voices) := by
  induction calls generalizing s received w with
  | nil =>
    refine ⟨s, w, rfl, ?_, fun hv _ => hv⟩
    rw [List.flatMap_nil, List.append_nil]
    exact h
  | cons c calls ih =>
    obtain ⟨s', w', hcall, hconserved, hfollow⟩ := h.perform (t := t) render c w
    obtain ⟨s'', w'', hrun, hconserved', hfollow'⟩ := ih hconserved w'
    refine ⟨s'', w'', ?_, ?_, fun hv hmeets => ?_⟩
    · simp only [Vst.runCalls, hcall, hrun]
    · rw [List.flatMap_cons, ← List.append_assoc]
      exact hconserved'
    · exact hfollow' (hfollow hv hmeets.1) (hmeets.2 s' w' hcall)

end

theorem Conserved.new (controls : ℕ → Controls) : Conserved [] (Synth.new controls) := by
  refine ⟨⟨?_, List.nodup_nil, by simp [Synth.new, Voices.new]⟩, rfl, rfl, rfl⟩
  show (List.range maxPolyphony ++ []).Perm _
  rw [List.append_nil]

theorem Following.new {controls : ℕ → Controls} (hgated : ∀ x, (controls x).Gated)
    (hgate : ∀ x, (controls x).gate = 0) : Following none [] (Synth.new controls).voices :=
  ⟨hgated, fun _ hn => (by cases hn), fun x _ _ => hgate x, fun _ hn => (by cases hn)⟩

/-! ## The gates at the end -/

/-- After each of its note ons a note has a note off. -/
def AllEnded (notes : List (ℕ × Bool)) : Prop :=
  ∀ before note after, notes = before ++ (note, true) :: after → (note, false) ∈ after

theorem mem_notesOf {events : List Applied} {note : ℕ} (h : (note, false) ∈ notesOf events) :
    .noteOff note ∈ events := by
  induction events with
  | nil => cases h
  | cons a events ih =>
    cases a with
    | noteOn note' velocity x =>
      rcases List.mem_cons.mp h with heq | h
      · cases heq
      · exact List.mem_cons_of_mem _ (ih h)
    | noteOff note' =>
      rcases List.mem_cons.mp h with heq | h
      · cases heq
        exact List.mem_cons_self
      · exact List.mem_cons_of_mem _ (ih h)
    | allNotesOff => exact List.mem_cons_of_mem _ (ih h)

/-- Once the notes have ended and none waits, the gates are closed. -/
theorem Following.closed {s : Synth} {received : List (ℕ × Bool)} (hc : Conserved received s)
    (h : Following none s.voices.log s.voices) (hwaits : s.queues.currentNotes = [])
    (hended : AllEnded received) : ∀ x < maxPolyphony, (s.voices.controls x).gate = 0 := by
  intro x hx
  rcases hc.partitioned.mem_or hx with hfree | hplays
  · exact h.free x hfree (by simp)
  · obtain ⟨n, hn, rfl⟩ := List.mem_map.mp hplays
    obtain ⟨events, ⟨velocity, before, hlog, -⟩, hreleased⟩ := h.ended n hn
    refine (h.gate n hn (by simp)).mpr (hreleased.mpr (Or.inl (mem_notesOf ?_)))
    refine hended (notesOf before) n.note (notesOf events) ?_
    rw [← hc.received, hwaits, hlog, notesOf_append]
    show _ ++ [] = _
    rw [List.append_nil]
    rfl

/-- What the voices should be between two calls: the containers hold each voice once, the gates and
the released voices follow the events, and when the notes have ended the gates are closed. -/
structure VoicesFollow (received : List (ℕ × Bool)) (s : Synth) : Prop where
  partitioned : Partitioned s.voices
  gate : ∀ n ∈ s.voices.playingVoices,
    (s.voices.controls n.voice).gate = 0 ↔ n.voice ∈ s.voices.releasedVoices
  ended : ∀ n ∈ s.voices.playingVoices, ∃ events, Since s.voices.log n events ∧
    (n.voice ∈ s.voices.releasedVoices ↔ Ends n.note events)
  closed : s.queues.currentNotes = [] → AllEnded received →
    ∀ x < maxPolyphony, (s.voices.controls x).gate = 0

/-- The controls of the voices: each has the interface of the processor. What the memory held when
a voice was made is in `memory`. -/
def voiceControls (widgets : List Widget) (memory : ℕ → ℤ × ℤ) (x : ℕ) : Controls :=
  .build widgets (memory x).1 (memory x).2

/-- Every run returns and holds each voice once. If its events meet the conditions, and the indices
that are not initialised leave the gate alone, the voices are as they should be after it, hence
between any two calls. -/
theorem voices_follow (t : Tuning) (render : Outputs → ℤ → Voices → W → W × (ℕ → Bool))
    (widgets : List Widget) (memory : ℕ → ℤ × ℤ)
    (hgate : ∀ x, (voiceControls widgets memory x).HasGate) (calls : List Call) (w : W) :
    ∃ s w', runCalls t (total render) calls (.new (voiceControls widgets memory)) w = some (s, w') ∧
      Partitioned s.voices ∧
      ((∀ x, (voiceControls widgets memory x).Apart) →
        RunMeets t (total render) calls (.new (voiceControls widgets memory)) w →
        VoicesFollow (calls.flatMap Call.notes) s) := by
  obtain ⟨s, w', hrun, hconserved, hfollow⟩ :=
    (Conserved.new (voiceControls widgets memory)).runCalls (t := t) render calls w
  rw [List.nil_append] at hconserved
  refine ⟨s, w', hrun, hconserved.partitioned, fun hapart hmeets => ?_⟩
  have hgated : ∀ x, (voiceControls widgets memory x).Gated :=
    fun x => Controls.gated_build (hgate x) (hapart x)
  have hs := hfollow (Following.new hgated fun x => (hgate x).closed) hmeets
  exact ⟨hconserved.partitioned, fun n hn => hs.gate n hn (by simp), hs.ended,
    fun hwaits hended => hs.closed hconserved hwaits hended⟩

/-- A tuning for the runs below. -/
def plainTuning : Tuning := ⟨fun note => note, fun velocity => velocity, fun bend => bend⟩

/-- A voice is silent when its gate is closed, and on no frames. -/
def gateRender (_ : Outputs) (count : ℤ) (v : Voices) (_ : Unit) : Unit × (ℕ → Bool) :=
  ((), fun x => decide ((v.controls x).gate = 0 ∨ count ≤ 0))

/-- The interface of a processor with a frequency, a gain and a gate. -/
def noteWidgets : List Widget := [.slider "freq" 440 0 20000, .slider "gain" 0 0 1, .button "gate"]

/-- The controls of voices made where the memory held -1. -/
def noteControls : ℕ → Controls := voiceControls noteWidgets fun _ => (-1, -1)

theorem noteControls_hasGate (x : ℕ) : (noteControls x).HasGate := by
  have hgate : (Controls.build noteWidgets (-1) (-1)).HasGate :=
    ⟨⟨⟨0, 1, 0⟩, by decide +kernel, by decide +kernel, by decide +kernel⟩, by decide +kernel⟩
  exact hgate

theorem noteControls_apart (x : ℕ) : (noteControls x).Apart := by
  have hapart : (Controls.build noteWidgets (-1) (-1)).Apart :=
    ⟨by decide +kernel, by decide +kernel⟩
  exact hapart

/-- The note 60 of the velocity 100, or its end, at an offset. -/
def noteOn60 (delta : ℤ) : MidiEvent := ⟨true, 0x90, 60, 100, delta⟩

/-- The end of the note 60. -/
def noteOff60 (delta : ℤ) : MidiEvent := ⟨true, 0x80, 60, 0, delta⟩

/-- A note and its end, in two chunks. -/
theorem voices_follow_note :
    ∃ s w', runCalls plainTuning (total gateRender)
        [.processEvents [noteOn60 0], .processReplacing 10, .processEvents [noteOff60 5],
          .processReplacing 10] (.new noteControls) () = some (s, w') ∧
      VoicesFollow [(60, true), (60, false)] s := by
  obtain ⟨s, w', hrun, -, hfollow⟩ := voices_follow plainTuning gateRender noteWidgets
    (fun _ => (-1, -1)) noteControls_hasGate
    [.processEvents [noteOn60 0], .processReplacing 10, .processEvents [noteOff60 5],
      .processReplacing 10] ()
  refine ⟨s, w', hrun, hfollow noteControls_apart ⟨trivial, fun s₁ w₁ h₁ => ?_⟩⟩
  cases Option.some.inj h₁
  refine ⟨fun _ => ⟨fun hnone => absurd hnone (by decide), fun _ _ _ => trivial⟩,
    fun s₂ w₂ h₂ => ?_⟩
  cases Option.some.inj h₂
  refine ⟨trivial, fun s₃ w₃ h₃ => ?_⟩
  cases Option.some.inj h₃
  refine ⟨fun _ => ⟨fun n hn _ _ => ?_, fun _ _ _ => trivial⟩, fun _ _ _ => trivial⟩
  -- the note has one voice
  have hone : n = ⟨60, 0⟩ := List.mem_singleton.mp hn
  rw [hone]
  rfl

/-- Of two voices of one note only the gate of the last one is closed. -/
theorem not_voices_follow_twice :
    ∃ s w', runCalls plainTuning (total gateRender)
        [.processEvents [noteOn60 0, noteOn60 0, noteOff60 5], .processReplacing 10]
        (.new noteControls) () = some (s, w') ∧
      ¬ VoicesFollow [(60, true), (60, true), (60, false)] s := by
  refine ⟨_, _, rfl, fun h => ?_⟩
  have hgate := (h.gate ⟨60, 0⟩ (by decide +kernel)).mpr (by decide +kernel)
  revert hgate
  decide +kernel

end Faust.Vst

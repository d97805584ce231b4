import Mathlib.Data.List.Pairwise
import Psx.Memory.DecodeTable
import Psx.Proofs.Memory.Region

/-!
# The windows of the decode table

`DecodeTable.Sound`: the windows are in order and apart from each other and from the memories, and
each belongs to a device whose base does not lie above it. The table relies on it in two places. A
new window is compared with its two neighbours only, which is enough because whatever it overlaps
reaches up to one of them (`overlaps_of_neighbours`), and an address is looked for by halving, which
finds the last window that begins at or below it (`lookup?_eq_some`).

Halving alone, of windows in any order, ends behind a window for which the test holds
(`any_lastOf?`), so what is found by it always contains the address (`window_of_lookup?`).
-/

namespace Psx

namespace Window

variable {w : Window} {a : UInt32}

theorem contains_iff : w.contains a = true ↔ w.first ≤ a ∧ a ≤ w.last := by
  unfold contains
  rw [Bool.and_eq_true, decide_eq_true_eq, decide_eq_true_eq]

theorem overlaps_iff {first last : UInt32} :
    w.overlaps first last = true ↔ first ≤ w.last ∧ w.first ≤ last := by
  unfold overlaps
  rw [Bool.and_eq_true, decide_eq_true_eq, decide_eq_true_eq]

end Window

namespace DecodeTable

variable {ι : Type}

/-! ### Halving -/

section

variable (p : Window → Bool) (windows : Array Window)

theorem bisect_le {low high : Nat} (h : low ≤ high) : bisect p windows low high ≤ high := by
  fun_induction bisect p windows low high with
  | case1 low high hlt middle _ ih => exact ih (by omega)
  | case2 low high hlt middle _ ih => exact Nat.le_trans (ih (by omega)) (by omega)
  | case3 => exact h

/-- Halving ends where it began or behind a window for which the test holds. -/
theorem bisect_eq_or (low high : Nat) :
    bisect p windows low high = low ∨
      ∃ n, bisect p windows low high = n + 1 ∧ windows[n]?.any p = true := by
  fun_induction bisect p windows low high with
  | case1 low high hlt middle hp ih =>
    rcases ih with ih | ih
    · exact .inr ⟨middle, ih, hp⟩
    · exact .inr ih
  | case2 low high hlt middle hp ih => exact ih
  | case3 => exact .inl rfl

/-- If the test holds up to some place and fails from it on, that place is found. -/
theorem bisect_spec (hp : ∀ i j : Nat, i ≤ j → windows[j]?.any p = true → windows[i]?.any p = true)
    {low high : Nat} (hlow : ∀ i < low, windows[i]?.any p = true)
    (hhigh : ∀ i, high ≤ i → windows[i]?.any p = false) (i : Nat) :
    windows[i]?.any p = decide (i < bisect p windows low high) := by
  fun_induction bisect p windows low high with
  | case1 low high hlt middle hm ih =>
    exact ih (fun j hj => hp j middle (by omega) hm) hhigh
  | case2 low high hlt middle hm ih =>
    refine ih hlow fun j hj => ?_
    by_contra hc
    exact hm (hp middle j hj (by simpa using hc))
  | case3 low high hlt =>
    by_cases hi : i < low
    · rw [hlow i hi, decide_eq_true hi]
    · rw [hhigh i (by omega), decide_eq_false hi]

end

variable {t : DecodeTable ι}

theorem mem_of_lastOf? {n : Nat} {w : Window} (h : t.lastOf? n = some w) : w ∈ t.windows := by
  cases n with
  | zero => cases h
  | succ n => exact Array.mem_of_getElem? h

theorem any_lastOf? {p : Window → Bool} {w : Window} (h : t.lastOf? (t.countWhile p) = some w) :
    p w = true := by
  unfold countWhile at h
  rcases bisect_eq_or p t.windows 0 t.windows.size with hn | ⟨n, hn, hp⟩
  · rw [hn] at h
    cases h
  · rw [hn] at h
    rw [show t.windows[n]? = some w from h] at hp
    exact hp

theorem mem_neighbours {first : UInt32} {w : Window} : w ∈ t.neighbours first ↔
    t.lastOf? (t.placeOf first) = some w ∨ t.windows[t.placeOf first]? = some w := by
  unfold neighbours
  rw [List.mem_append, Option.mem_toList, Option.mem_toList]

theorem mem_of_mem_neighbours {first : UInt32} {w : Window} (h : w ∈ t.neighbours first) :
    w ∈ t.windows :=
  (mem_neighbours.1 h).elim mem_of_lastOf? Array.mem_of_getElem?

/-! ### Looking up -/

/-- What is found for an address answers there. -/
theorem window_of_lookup? {a offset : UInt32} {part : ι} (h : t.lookup? a = some (part, offset)) :
    ∃ w ∈ t.windows, w.contains a = true ∧
      ∃ e, t.entries[w.device]? = some e ∧ part = e.part ∧ offset = a - e.base := by
  unfold lookup? at h
  simp only [Option.bind_eq_bind, Option.bind_eq_some_iff] at h
  obtain ⟨w, hw, e, he, hp⟩ := h
  obtain ⟨hw, hlast⟩ := Option.filter_eq_some_iff.1 hw
  have hfirst : w.first ≤ a := of_decide_eq_true (any_lastOf? hw)
  have hlast : a ≤ w.last := of_decide_eq_true hlast
  obtain ⟨rfl, rfl⟩ := Prod.mk.inj (Option.some.inj hp)
  exact ⟨w, mem_of_lastOf? hw, Window.contains_iff.2 ⟨hfirst, hlast⟩, e, he, rfl, rfl⟩

/-! ### Soundness -/

/-- What the table relies on. -/
structure Sound (t : DecodeTable ι) : Prop where
  /-- The windows are in order, and none reaches into the next. -/
  sorted : t.windows.toList.Pairwise fun v w => v.last < w.first
  nonempty : ∀ w ∈ t.windows, w.first ≤ w.last
  /-- A window holds no address that the bus serves itself. -/
  apart : ∀ w ∈ t.windows, ∀ a, w.contains a = true → Address.isMemory a = false
  based : ∀ w ∈ t.windows, ∃ e, t.entries[w.device]? = some e ∧ e.base ≤ w.first

namespace Sound

variable {v w : Window} {i j : Nat}

theorem lt (h : t.Sound) (hij : i < j) (hv : t.windows[i]? = some v) (hw : t.windows[j]? = some w) :
    v.last < w.first := by
  obtain ⟨hi, rfl⟩ := Array.getElem?_eq_some_iff.1 hv
  obtain ⟨hj, rfl⟩ := Array.getElem?_eq_some_iff.1 hw
  exact List.pairwise_iff_getElem.1 h.sorted i j hi hj hij

theorem le_of_getElem? (h : t.Sound) (hw : t.windows[i]? = some w) : w.first ≤ w.last :=
  h.nonempty w (Array.mem_of_getElem? hw)

/-- The windows for which a test holds come first, if it holds of all that begin below one for which
it holds. -/
theorem any_getElem? (h : t.Sound) {p : Window → Bool}
    (hp : ∀ v w : Window, v.first ≤ w.first → p w = true → p v = true) (i : Nat) :
    t.windows[i]?.any p = decide (i < t.countWhile p) := by
  refine bisect_spec p t.windows (fun j k hjk hk => ?_) (fun j hj => absurd hj (Nat.not_lt_zero j))
    (fun j hj => ?_) i
  · rcases Nat.eq_or_lt_of_le hjk with rfl | hlt
    · exact hk
    · obtain ⟨w, hw, hpw⟩ := (Option.any_eq_true ..).1 hk
      have hj : j < t.windows.size := Nat.lt_trans hlt (Array.getElem?_eq_some_iff.1 hw).1
      have hv : t.windows[j]? = some t.windows[j] := Array.getElem?_eq_getElem hj
      rw [hv]
      refine hp _ w ?_ hpw
      exact UInt32.le_trans (h.le_of_getElem? hv) (UInt32.le_of_lt (h.lt hlt hv hw))
  · rw [Array.getElem?_eq_none hj]
    rfl

/-- Behind the place of an address are the windows that begin at or above it. -/
theorem lt_placeOf_iff (h : t.Sound) (first : UInt32) (hw : t.windows[i]? = some w) :
    i < t.placeOf first ↔ w.first < first := by
  have hany := h.any_getElem? (p := (·.first < first))
    (fun v w hvw hw => decide_eq_true (UInt32.lt_of_le_of_lt hvw (of_decide_eq_true hw))) i
  rw [hw] at hany
  simpa [placeOf] using (Bool.eq_iff_iff.1 hany).symm

theorem first_lt_of_mem_take (h : t.Sound) {first : UInt32}
    (hw : w ∈ t.windows.toList.take (t.placeOf first)) : w.first < first := by
  obtain ⟨i, hi, rfl⟩ := List.mem_take_iff_getElem.1 hw
  have hsize : i < t.windows.size := Nat.lt_of_lt_of_le hi (Nat.min_le_right ..)
  exact (h.lt_placeOf_iff first (Array.getElem?_eq_getElem hsize)).1 (by omega)

theorem le_first_of_mem_drop (h : t.Sound) {first : UInt32}
    (hw : w ∈ t.windows.toList.drop (t.placeOf first)) : first ≤ w.first := by
  obtain ⟨i, hi, rfl⟩ := List.mem_drop_iff_getElem.1 hw
  have hsize : t.placeOf first + i < t.windows.size := by
    rw [Nat.add_comm]
    exact hi
  refine UInt32.not_lt.1 (mt (h.lt_placeOf_iff first (Array.getElem?_eq_getElem hsize)).2 ?_)
  omega

theorem eq_of_contains (h : t.Sound) {a : UInt32} (hv : v ∈ t.windows) (hw : w ∈ t.windows)
    (hva : v.contains a = true) (hwa : w.contains a = true) : v = w := by
  obtain ⟨i, hi⟩ := Array.getElem?_of_mem hv
  obtain ⟨j, hj⟩ := Array.getElem?_of_mem hw
  rw [Window.contains_iff] at hva hwa
  simp only [UInt32.le_iff_toNat_le] at hva hwa
  rcases Nat.lt_trichotomy i j with hlt | rfl | hlt
  · have := UInt32.lt_iff_toNat_lt.1 (h.lt hlt hi hj)
    omega
  · exact Option.some.inj (hi.symm.trans hj)
  · have := UInt32.lt_iff_toNat_lt.1 (h.lt hlt hj hi)
    omega

/-- The window of an address is the last that begins at or below it. -/
theorem lastOf?_eq_some (h : t.Sound) {a : UInt32} (hw : w ∈ t.windows)
    (ha : w.contains a = true) : t.lastOf? (t.countWhile (·.first ≤ a)) = some w := by
  obtain ⟨i, hi⟩ := Array.getElem?_of_mem hw
  obtain ⟨hfirst, hlast⟩ := Window.contains_iff.1 ha
  have hany : ∀ j v, t.windows[j]? = some v →
      (j < t.countWhile (·.first ≤ a) ↔ v.first ≤ a) := fun j v hj => by
    have := h.any_getElem? (p := (·.first ≤ a))
      (fun v w hvw hw => decide_eq_true (UInt32.le_trans hvw (of_decide_eq_true hw))) j
    rw [hj] at this
    simpa using (Bool.eq_iff_iff.1 this).symm
  have hlt : i < t.countWhile (·.first ≤ a) := (hany i w hi).2 hfirst
  have hn : ¬i + 1 < t.countWhile (·.first ≤ a) := fun hlt' => by
    have hsize : i + 1 < t.windows.size :=
      Nat.lt_of_lt_of_le hlt' (bisect_le _ _ (Nat.zero_le _))
    have hv : t.windows[i + 1]? = some t.windows[i + 1] := Array.getElem?_eq_getElem hsize
    -- the next window would begin behind this one, and so behind the address
    have hle : t.windows[i + 1].first ≤ a := (hany _ _ hv).1 hlt'
    exact UInt32.lt_irrefl a
      (UInt32.lt_of_le_of_lt hlast (UInt32.lt_of_lt_of_le (h.lt (Nat.lt_succ_self i) hi hv) hle))
  rw [show t.countWhile (·.first ≤ a) = i + 1 by omega]
  exact hi

/-- What answers at an address is the device of the window that holds it. -/
theorem lookup?_eq_some (h : t.Sound) {a : UInt32} (hw : w ∈ t.windows) (ha : w.contains a = true)
    {e : Entry ι} (he : t.entries[w.device]? = some e) :
    t.lookup? a = some (e.part, a - e.base) := by
  have hlast : decide (a ≤ w.last) = true := decide_eq_true (Window.contains_iff.1 ha).2
  unfold lookup?
  rw [h.lastOf?_eq_some hw ha, Option.filter_some, if_pos hlast]
  simp [he]

theorem lookup?_eq_none_iff (h : t.Sound) {a : UInt32} :
    t.lookup? a = none ↔ ∀ w ∈ t.windows, w.contains a = false := by
  constructor
  · intro hn w hw
    by_contra hc
    obtain ⟨e, he, -⟩ := h.based w hw
    rw [h.lookup?_eq_some hw (by simpa using hc) he] at hn
    cases hn
  · intro hall
    cases hl : t.lookup? a with
    | none => rfl
    | some r =>
      obtain ⟨w, hw, hc, -⟩ := window_of_lookup? hl
      rw [hall w hw] at hc
      cases hc

/-- The windows before a new one end below it, but for its neighbour. -/
theorem last_lt (h : t.Sound) {first : UInt32} (hi : t.windows[i]? = some w)
    (hlt : i + 1 < t.placeOf first) : w.last < first := by
  have hle : t.placeOf first ≤ t.windows.size := bisect_le _ _ (Nat.zero_le _)
  have hv : t.windows[i + 1]? = some t.windows[i + 1] := Array.getElem?_eq_getElem (by omega)
  exact UInt32.lt_trans (h.lt (Nat.lt_succ_self i) hi hv) ((h.lt_placeOf_iff first hv).1 hlt)

/-- If a range reaches a window behind its place, it reaches its neighbour there. -/
theorem exists_overlaps (h : t.Sound) {first last : UInt32} (hi : t.windows[i]? = some w)
    (hgt : t.placeOf first < i) (hw : w.first ≤ last) :
    ∃ v, t.windows[t.placeOf first]? = some v ∧ v.overlaps first last = true := by
  have hsize : i < t.windows.size := (Array.getElem?_eq_some_iff.1 hi).1
  have hv : t.windows[t.placeOf first]? = some t.windows[t.placeOf first] :=
    Array.getElem?_eq_getElem (Nat.lt_trans hgt hsize)
  have hfirst : first ≤ t.windows[t.placeOf first].first :=
    UInt32.not_lt.1 (mt (h.lt_placeOf_iff first hv).2 (Nat.lt_irrefl _))
  have hlast := h.le_of_getElem? hv
  have hbefore := UInt32.le_of_lt (h.lt hgt hv hi)
  exact ⟨_, hv, Window.overlaps_iff.2 ⟨UInt32.le_trans hfirst hlast,
    UInt32.le_trans hlast (UInt32.le_trans hbefore hw)⟩⟩

/-- What overlaps neither neighbour overlaps no window. -/
theorem overlaps_of_neighbours (h : t.Sound) {first last : UInt32}
    (hn : ∀ w ∈ t.neighbours first, w.overlaps first last = false) (hw : w ∈ t.windows) :
    w.overlaps first last = false := by
  by_contra hc
  obtain ⟨hlast, hfirst⟩ := Window.overlaps_iff.1 (by simpa using hc)
  obtain ⟨i, hi⟩ := Array.getElem?_of_mem hw
  rcases Nat.lt_trichotomy i (t.placeOf first) with hlt | heq | hgt
  · by_cases hnext : i + 1 < t.placeOf first
    · exact UInt32.lt_irrefl first (UInt32.lt_of_le_of_lt hlast (h.last_lt hi hnext))
    · refine hc (hn w (mem_neighbours.2 (.inl ?_)))
      rw [show t.placeOf first = i + 1 by omega]
      exact hi
  · exact hc (hn w (mem_neighbours.2 (.inr (heq ▸ hi))))
  · obtain ⟨v, hv, ho⟩ := h.exists_overlaps hi hgt hfirst
    rw [hn v (mem_neighbours.2 (.inr hv))] at ho
    cases ho

end Sound

/-! ### New windows -/

/-- Ranges overlap if they share an address. -/
theorem overlap_iff_exists {first last first' last' : UInt32} (h : first ≤ last)
    (h' : first' ≤ last') : first ≤ last' ∧ first' ≤ last ↔
      ∃ a, (first ≤ a ∧ a ≤ last) ∧ first' ≤ a ∧ a ≤ last' := by
  constructor
  · rintro ⟨hl, hr⟩
    rcases UInt32.le_total first first' with hf | hf
    · exact ⟨first', ⟨hf, hr⟩, UInt32.le_refl _, h'⟩
    · exact ⟨first, ⟨UInt32.le_refl _, h⟩, hf, hl⟩
  · rintro ⟨a, ⟨hfa, hal⟩, hfa', hal'⟩
    exact ⟨UInt32.le_trans hfa hal', UInt32.le_trans hfa' hal⟩

theorem fixed_ordered : ∀ r ∈ fixed, r.1 ≤ r.2.1 := by decide

/-- The ranges that are fixed hold the addresses of the memories. -/
theorem isMemory_iff_fixed {a : UInt32} :
    Address.isMemory a = true ↔ ∃ r ∈ fixed, r.1 ≤ a ∧ a ≤ r.2.1 := by
  rw [Address.isMemory_iff]
  simp only [fixed, List.mem_cons, List.not_mem_nil, or_false, exists_eq_or_imp, exists_eq_left,
    Address.ramMirrorLast, Address.scratchpadFirst, Address.scratchpadLast, Address.biosFirst,
    Address.biosLast, UInt32.le_iff_toNat_le, UInt32.reduceToNat]
  omega

/-- Something answers at the address already. -/
def Taken (t : DecodeTable ι) (a : UInt32) : Prop :=
  Address.isMemory a = true ∨ ∃ w ∈ t.windows, w.contains a = true

theorem fixed_find?_isSome_iff {first last : UInt32} (hle : first ≤ last) :
    (fixed.find? fun (f, l, _) => first ≤ l && f ≤ last).isSome = true ↔
      ∃ a, (first ≤ a ∧ a ≤ last) ∧ Address.isMemory a = true := by
  simp only [List.find?_isSome, Bool.and_eq_true, decide_eq_true_eq]
  constructor
  · rintro ⟨r, hr, ho⟩
    obtain ⟨a, ha, hm⟩ := (overlap_iff_exists hle (fixed_ordered r hr)).1 ho
    exact ⟨a, ha, isMemory_iff_fixed.2 ⟨r, hr, hm⟩⟩
  · rintro ⟨a, ha, hm⟩
    obtain ⟨r, hr, hm⟩ := isMemory_iff_fixed.1 hm
    exact ⟨r, hr, (overlap_iff_exists hle (fixed_ordered r hr)).2 ⟨a, ha, hm⟩⟩

theorem Sound.neighbours_find?_isSome_iff (h : t.Sound) {first last : UInt32}
    (hle : first ≤ last) :
    ((t.neighbours first).find? (·.overlaps first last)).isSome = true ↔
      ∃ a, (first ≤ a ∧ a ≤ last) ∧ ∃ w ∈ t.windows, w.contains a = true := by
  rw [List.find?_isSome]
  constructor
  · rintro ⟨w, hw, ho⟩
    have hw := mem_of_mem_neighbours hw
    obtain ⟨a, ha, hc⟩ := (overlap_iff_exists hle (h.nonempty w hw)).1 (Window.overlaps_iff.1 ho)
    exact ⟨a, ha, w, hw, Window.contains_iff.2 hc⟩
  · rintro ⟨a, ha, w, hw, hc⟩
    have ho : w.overlaps first last = true := Window.overlaps_iff.2
      ((overlap_iff_exists hle (h.nonempty w hw)).2 ⟨a, ha, Window.contains_iff.1 hc⟩)
    by_contra hn
    have hall : ∀ w ∈ t.neighbours first, w.overlaps first last = false := by simpa using hn
    rw [h.overlaps_of_neighbours hall hw] at ho
    cases ho

/-- A range collides with something if an address of it is taken. -/
theorem Sound.conflict?_isSome_iff (h : t.Sound) {first last : UInt32} (hle : first ≤ last) :
    (t.conflict? first last).isSome = true ↔ ∃ a, (first ≤ a ∧ a ≤ last) ∧ t.Taken a := by
  have hor : (t.conflict? first last).isSome = true ↔
      (fixed.find? fun (f, l, _) => first ≤ l && f ≤ last).isSome = true ∨
        ((t.neighbours first).find? (·.overlaps first last)).isSome = true := by
    unfold conflict?
    cases fixed.find? fun (f, l, _) => first ≤ l && f ≤ last with
    | none => simp
    | some r => simp
  rw [hor, fixed_find?_isSome_iff hle, h.neighbours_find?_isSome_iff hle, ← exists_or]
  simp only [← and_or_left, Taken]

theorem insertAt_toList (windows : Array Window) (n : Nat) (w : Window) :
    (insertAt windows n w).toList = windows.toList.take n ++ w :: windows.toList.drop n := by
  simp [insertAt, List.take_of_length_le]

theorem mem_insertAt {windows : Array Window} {n : Nat} {v w : Window} :
    v ∈ insertAt windows n w ↔ v = w ∨ v ∈ windows := by
  rw [← Array.mem_toList_iff, insertAt_toList, List.mem_append, List.mem_cons, ← Array.mem_toList_iff]
  conv => rhs; rw [← List.take_append_drop n windows.toList, List.mem_append]
  exact or_left_comm

/-- A window that takes up free addresses keeps the table sound. -/
theorem Sound.insert (h : t.Sound) {w : Window} (hw : w.first ≤ w.last)
    (hfree : ∀ a, w.contains a = true → ¬t.Taken a) {t' : DecodeTable ι}
    (hwindows : t'.windows = insertAt t.windows (t.placeOf w.first) w)
    (hentries : ∀ (i : Nat) e, t.entries[i]? = some e → t'.entries[i]? = some e)
    (hbased : ∃ e, t'.entries[w.device]? = some e ∧ e.base ≤ w.first) : t'.Sound := by
  -- a window of the table and the new one do not overlap
  have hapart : ∀ v ∈ t.windows, v.last < w.first ∨ w.last < v.first := fun v hv => by
    by_contra hc
    rw [not_or, UInt32.not_lt, UInt32.not_lt] at hc
    obtain ⟨a, ha, hva⟩ := (overlap_iff_exists hw (h.nonempty v hv)).1 hc
    exact hfree a (Window.contains_iff.2 ha) (.inr ⟨v, hv, Window.contains_iff.2 hva⟩)
  refine ⟨?_, fun v hv => ?_, fun v hv a ha => ?_, fun v hv => ?_⟩
  · rw [hwindows, insertAt_toList, List.pairwise_append, List.pairwise_cons]
    have hs := h.sorted
    rw [← List.take_append_drop (t.placeOf w.first) t.windows.toList, List.pairwise_append] at hs
    have hbefore : ∀ v ∈ t.windows.toList.take (t.placeOf w.first), v.last < w.first :=
      fun v hv => (hapart v (Array.mem_toList_iff.1 (List.mem_of_mem_take hv))).resolve_right
        fun hlt => UInt32.lt_irrefl w.first (UInt32.lt_of_le_of_lt hw
          (UInt32.lt_trans hlt (h.first_lt_of_mem_take hv)))
    have hbehind : ∀ v ∈ t.windows.toList.drop (t.placeOf w.first), w.last < v.first :=
      fun v hv => by
        have hmem := Array.mem_toList_iff.1 (List.mem_of_mem_drop hv)
        refine (hapart v hmem).resolve_left fun hlt => UInt32.lt_irrefl v.last ?_
        exact UInt32.lt_of_lt_of_le hlt
          (UInt32.le_trans (h.le_first_of_mem_drop hv) (h.nonempty v hmem))
    refine ⟨hs.1, ⟨hbehind, hs.2.1⟩, fun u hu v hv => ?_⟩
    rcases List.mem_cons.1 hv with rfl | hv
    · exact hbefore u hu
    · exact hs.2.2 u hu v hv
  all_goals rw [hwindows, mem_insertAt] at hv
  · rcases hv with rfl | hv
    · exact hw
    · exact h.nonempty v hv
  · rcases hv with rfl | hv
    · exact Bool.eq_false_iff.2 fun hm => hfree a ha (.inl hm)
    · exact h.apart v hv a ha
  · rcases hv with rfl | hv
    · exact hbased
    · obtain ⟨e, he, hle⟩ := h.based v hv
      exact ⟨e, hentries _ e he, hle⟩

/-- Why a window of so many addresses cannot be had: there are none, they go on past the last address
there is, or one of them is taken. -/
def Refuses (t : DecodeTable ι) (start size : UInt32) : Prop :=
  size = 0 ∨ 2 ^ 32 < start.toNat + size.toNat ∨
    ∃ a : UInt32, (start.toNat ≤ a.toNat ∧ a.toNat < start.toNat + size.toNat) ∧ t.Taken a

/-- The last address of a window. -/
theorem last_toNat (start : UInt32) {size : UInt32} (h : size ≠ 0) :
    (start + (size - 1)).toNat = (start.toNat + size.toNat - 1) % 2 ^ 32 := by
  have hpos : size.toNat ≠ 0 := fun h0 => h (UInt32.toNat_inj.1 h0)
  have hle : 1 ≤ size := UInt32.le_iff_toNat_le.2 (Nat.one_le_iff_ne_zero.2 hpos)
  rw [UInt32.toNat_add, UInt32.toNat_sub_of_le _ _ hle, UInt32.toNat_one]
  congr 1
  omega

theorem first_le_last {start size : UInt32} (h : ¬t.Refuses start size) {w : Window}
    (hfirst : w.first = start) (hlast : w.last.toNat + 1 = start.toNat + size.toNat) :
    w.first ≤ w.last := by
  have hpos : size.toNat ≠ 0 := fun h0 => h (.inl (UInt32.toNat_inj.1 h0))
  rw [UInt32.le_iff_toNat_le, hfirst]
  omega

/-- A window is added just if it is not refused. -/
theorem Sound.insertWindow_cases (h : t.Sound) (device : Nat) (name : String)
    (start size : UInt32) :
    (t.Refuses start size ∧ ∃ error, t.insertWindow device name start size = .error error) ∨
    (¬t.Refuses start size ∧ ∃ w : Window, w.first = start ∧
      w.last.toNat + 1 = start.toNat + size.toNat ∧ w.device = device ∧
      (∀ a, w.contains a = true → ¬t.Taken a) ∧
      t.insertWindow device name start size =
        .ok { t with windows := insertAt t.windows (t.placeOf w.first) w }) := by
  unfold insertWindow
  by_cases hsize : size = 0
  · exact .inl ⟨.inl hsize, _, if_pos hsize⟩
  rw [if_neg hsize]
  dsimp only
  have hlast := last_toNat start hsize
  have hpos : size.toNat ≠ 0 := fun h0 => hsize (UInt32.toNat_inj.1 h0)
  have hstart := start.toNat_lt
  have hsize' := size.toNat_lt
  by_cases hwrap : start + (size - 1) < start
  · rw [if_pos hwrap]
    rw [UInt32.lt_iff_toNat_lt, hlast] at hwrap
    exact .inl ⟨.inr (.inl (by omega)), _, rfl⟩
  rw [if_neg hwrap]
  rw [UInt32.not_lt, UInt32.le_iff_toNat_le, hlast] at hwrap
  have hlast : (start + (size - 1)).toNat + 1 = start.toNat + size.toNat := by omega
  have hle : start ≤ start + (size - 1) := UInt32.le_iff_toNat_le.2 (by omega)
  have hrange : ∀ a : UInt32, start ≤ a ∧ a ≤ start + (size - 1) ↔
      start.toNat ≤ a.toNat ∧ a.toNat < start.toNat + size.toNat := fun a => by
    rw [UInt32.le_iff_toNat_le, UInt32.le_iff_toNat_le]
    omega
  have htaken := h.conflict?_isSome_iff hle
  simp only [hrange] at htaken
  cases hc : t.conflict? start (start + (size - 1)) with
  | some existing =>
    rw [hc] at htaken
    exact .inl ⟨.inr (.inr (htaken.1 rfl)), _, rfl⟩
  | none =>
    rw [hc] at htaken
    have hfree : ¬∃ a : UInt32, (start.toNat ≤ a.toNat ∧ a.toNat < start.toNat + size.toNat) ∧
        t.Taken a := fun ht => by cases htaken.2 ht
    refine .inr ⟨?_, ⟨start, start + (size - 1), device⟩, rfl, hlast, rfl, fun a ha ht => ?_, rfl⟩
    · rintro (h0 | hw | ht)
      · exact hsize h0
      · omega
      · exact hfree ht
    · exact hfree ⟨a, (hrange a).1 (Window.contains_iff.1 ha), ht⟩

end DecodeTable

end Psx

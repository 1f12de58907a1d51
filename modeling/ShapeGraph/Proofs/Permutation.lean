import ShapeGraph.Proofs.Axis

/-!
# Permutations as lists of positions

A permutation of `n` axes is a list of the positions below `n`, each of them once.  Two
of them are composed by picking from the first at the positions of the second, and the
inverse says at which place each position is listed.  Any list of this kind is accepted
where callers give a permutation, and so is any list of integers that stand for one.

* `getElem?_invert` — what the inverse says;
* `picked_invert`, `invert_picked` — composed with its inverse, in either order, a
  permutation is the identity;
* `picked_perm_range` — composed permutations are one;
* `permutation_of_perm` — the permutations are accepted, and stay what they are;
* `shownAt_ofNat` — the inverse as lists of numbers have it;
* `permutation_accepts` — which lists are accepted, and what becomes of them.
-/

namespace ShapeGraph.Axis

open ShapeGraph.Numeric (Number)

variable {positions : List Nat} {n : Nat}

/-- A permutation of a rank has as many positions as the rank. -/
theorem perm_length (h : positions.Perm (List.range n)) : positions.length = n := by
  simpa using h.length_eq

/-- A permutation names no position twice. -/
theorem perm_nodup (h : positions.Perm (List.range n)) : positions.Nodup :=
  h.nodup_iff.mpr List.nodup_range

/-- A permutation picks from any list of as many items. -/
theorem perm_within {α : Type} {items : List α} (h : positions.Perm (List.range n))
    (hlength : items.length = n) : Within positions items.length := by
  rw [hlength]
  exact .of_perm h

/-- A permutation picks as many items as there are. -/
theorem length_picked_perm {α : Type} {items : List α}
    (h : positions.Perm (List.range items.length)) :
    (picked items positions).length = items.length :=
  (length_picked (.of_perm h)).trans (perm_length h)

/-- Each position is listed at some place. -/
theorem exists_place (h : positions.Perm (List.range n)) {a : Nat} (ha : a < n) :
    ∃ k : Nat, positions[k]? = some a :=
  List.mem_iff_getElem?.mp (h.mem_iff.mpr (List.mem_range.mpr ha))

/-! ## The inverse -/

/-- A position that is not named has no last place among the others. -/
theorem lastPosition?_eq_none {a : Nat} (ha : a ∉ positions) (start : Nat) :
    lastPosition? a (positions.map some) start = none := by
  induction positions generalizing start with
  | nil => rfl
  | cons p rest ih =>
      rw [List.mem_cons, not_or] at ha
      simp [lastPosition?, ih ha.2, Ne.symm ha.1]

/-- The only place at which a value is listed is the last one. -/
theorem lastPosition?_eq (hnodup : positions.Nodup) {k a : Nat} (hk : positions[k]? = some a)
    (start : Nat) : lastPosition? a (positions.map some) start = some (start + k) := by
  induction positions generalizing k start with
  | nil => cases hk
  | cons p rest ih =>
      obtain ⟨hfresh, hrest⟩ := List.nodup_cons.mp hnodup
      cases k with
      | zero =>
          obtain rfl : p = a := Option.some.inj hk
          simp [lastPosition?, lastPosition?_eq_none hfresh]
      | succ k =>
          have hlater := ih hrest (show rest[k]? = some a from hk) (start + 1)
          simp only [List.map_cons, lastPosition?, hlater, Option.some.injEq]
          omega

/-- The inverse has as many positions. -/
@[simp] theorem length_invert (positions : List Nat) :
    (invert positions).length = positions.length := by
  simp [invert]

/-- The inverse lists at each position the place at which that is listed. -/
theorem getElem?_invert (h : positions.Perm (List.range n)) {k a : Nat}
    (hk : positions[k]? = some a) : (invert positions)[a]? = some k := by
  have ha : a < positions.length := by
    rw [perm_length h]
    exact Within.of_perm h a (List.mem_of_getElem? hk)
  simp [invert, ha, lastPosition?_eq (perm_nodup h) hk]

/-- **The inverse after its permutation** is the identity. -/
theorem invert_picked (h : positions.Perm (List.range n)) :
    picked (invert positions) positions = List.range n := by
  have hwithin : Within positions (invert positions).length :=
    perm_within h ((length_invert positions).trans (perm_length h))
  refine List.ext_getElem? fun k => ?_
  rw [getElem?_picked hwithin]
  by_cases hk : k < n
  · have hlt : k < positions.length := (perm_length h).symm ▸ hk
    have hat : positions[k]? = some positions[k] := List.getElem?_eq_getElem hlt
    rw [hat, Option.bind_some, getElem?_invert h hat, List.getElem?_range hk]
  · have hlength : positions.length ≤ k := by
      rw [perm_length h]
      omega
    rw [List.getElem?_eq_none hlength, List.getElem?_eq_none (by simpa using hk), Option.bind_none]

/-- The inverse of a permutation is one. -/
theorem invert_perm (h : positions.Perm (List.range n)) :
    (invert positions).Perm (List.range n) := by
  have hpicked : (picked (invert positions) positions).Perm (invert positions) :=
    picked_perm (by rwa [length_invert, perm_length h])
  rw [invert_picked h] at hpicked
  exact hpicked.symm

/-- **A permutation after its inverse** is the identity. -/
theorem picked_invert (h : positions.Perm (List.range n)) :
    picked positions (invert positions) = List.range n := by
  have hwithin : Within (invert positions) positions.length :=
    perm_within (invert_perm h) (perm_length h)
  refine List.ext_getElem? fun a => ?_
  rw [getElem?_picked hwithin]
  by_cases ha : a < n
  · obtain ⟨k, hk⟩ := exists_place h ha
    rw [getElem?_invert h hk, Option.bind_some, hk, List.getElem?_range ha]
  · have hlength : (invert positions).length ≤ a := by
      rw [length_invert, perm_length h]
      omega
    rw [List.getElem?_eq_none hlength, List.getElem?_eq_none (by simpa using ha), Option.bind_none]

/-- What a permutation and then its inverse pick is what there was. -/
theorem picked_picked_invert {α : Type} {items : List α}
    (h : positions.Perm (List.range items.length)) :
    picked (picked items positions) (invert positions) = items := by
  have hwithin : Within (invert positions) positions.length :=
    perm_within (invert_perm h) (perm_length h)
  rw [picked_picked (.of_perm h) hwithin, picked_invert h, picked_range]

/-- Permutations picked from one by the other are a permutation. -/
theorem picked_perm_range {others : List Nat} (h : positions.Perm (List.range n))
    (hothers : others.Perm (List.range n)) : (picked positions others).Perm (List.range n) :=
  (picked_perm (by rwa [perm_length h])).trans h

/-- **Inverting twice** gives a permutation back. -/
theorem invert_invert (h : positions.Perm (List.range n)) :
    invert (invert positions) = positions := by
  refine List.ext_getElem? fun k => ?_
  by_cases hk : k < positions.length
  · have hat : positions[k]? = some positions[k] := List.getElem?_eq_getElem hk
    rw [getElem?_invert (invert_perm h) (getElem?_invert h hat), hat]
  · rw [List.getElem?_eq_none (by simpa using hk), List.getElem?_eq_none (by omega)]

/-! ## What callers give -/

/-- A list that is accepted names as many axes as there are. -/
theorem length_of_permutation {axes : List Number}
    (h : permutation (.ofNat n) axes = .ok positions) : axes.length = n := by
  obtain ⟨m, entries, hrank, hlists, _⟩ := permutation_eq_ok.mp h
  obtain rfl : n = m := Number.ofNat_inj hrank
  exact hlists.length_eq

/-- The positions of a permutation list the axes. -/
theorem lists_of_perm (h : positions.Perm (List.range n)) :
    Lists n (positions.map .ofNat) (positions.map Int.ofNat) where
  axes_eq := by
    rw [List.map_map]
    rfl
  length_eq := by rw [List.length_map, perm_length h]
  range := by
    refine List.forall_mem_map.mpr fun p hp => ?_
    have hlt : p < n := Within.of_perm h p hp
    exact ⟨by simp only [Int.ofNat_eq_natCast]; omega, Int.ofNat_lt.mpr hlt⟩
  distinct := by
    rw [map_counted]
    exact (nodup_of_map_ofNat rfl).mp (perm_nodup h)

/-- **A permutation is accepted as it is.** -/
theorem permutation_of_perm (h : positions.Perm (List.range n)) :
    permutation (.ofNat n) (positions.map .ofNat) = .ok positions :=
  permutation_eq_ok.mpr ⟨n, _, rfl, lists_of_perm h, (map_counted n positions).symm⟩

/-- Integers that list the axes are accepted. -/
theorem Lists.accepted {axes : List Number} {entries : List Int} (h : Lists n axes entries) :
    ∃ positions, permutation (.ofNat n) axes = .ok positions := by
  refine ⟨entries.map fun a => (counted n a).toNat,
    permutation_eq_ok.mpr ⟨n, entries, rfl, h, ?_⟩⟩
  rw [List.map_map]
  exact List.map_congr_left fun a ha => Int.toNat_of_nonneg (counted_range (h.range a ha)).1

/-! ## Inverses of lists of numbers -/

/-- Positions within a length reach no further than it. -/
theorem foldl_reach (h : Within positions n) :
    (positions.map some).foldl (fun reach entry => Nat.max reach (entry.elim 0 (· + 1))) n = n := by
  induction positions with
  | nil => rfl
  | cons p rest ih =>
      have hmax : Nat.max n (p + 1) = n := Nat.max_eq_left h.cons.1
      simpa [hmax] using ih h.cons.2

/-- **Numbers that are a permutation** are inverted as one: the list has neither gaps nor places
that nothing is entered at.  Lists hold no more items than there are indices. -/
theorem shownAt_ofNat (h : positions.Perm (List.range n)) (hn : n ≤ Entries.indexEnd) :
    shownAt (positions.map .ofNat) = (invert positions).map some := by
  have hnamed : (positions.map Number.ofNat).map
      (fun axis => axis.index?.filter (· < Entries.indexEnd)) = positions.map some := by
    rw [List.map_map]
    refine List.map_congr_left fun p hp => ?_
    have hp : p < n := Within.of_perm h p hp
    simp [Option.filter, Nat.lt_of_lt_of_le hp hn]
  rw [shownAt, hnamed, List.length_map, perm_length h, foldl_reach (.of_perm h), invert,
    perm_length h, List.map_map]
  refine List.map_congr_left fun axis haxis => ?_
  obtain ⟨k, hk⟩ := exists_place h (List.mem_range.mp haxis)
  simp [lastPosition?_eq (perm_nodup h) hk]

/-! ## Lists that are accepted -/

/-- Positions list each axis of a rank once, and their inverse takes them back: it is an inverse
on either side and on the items of any list, and is itself inverted to the positions.  Inverting
them as a list of any numbers comes to the same, as long as the list has an index for each. -/
structure Reversible (n : Nat) (positions : List Nat) : Prop where
  perm : positions.Perm (List.range n)
  after : pick (invert positions) (positions.map .ofNat) = .ok (List.range n)
  before : pick positions ((invert positions).map .ofNat) = .ok (List.range n)
  twice : invert (invert positions) = positions
  restored : ∀ {α : Type} (items : List α), items.length = n →
    ∃ moved, pick items (positions.map .ofNat) = .ok moved ∧
      pick moved ((invert positions).map .ofNat) = .ok items
  numbers : n ≤ Entries.indexEnd →
    shownAt (positions.map .ofNat) = (invert positions).map some ∧
      shownAt ((invert positions).map .ofNat) = positions.map some

/-- A permutation and its inverse undo each other on positions and on items. -/
theorem reversible_of_perm (h : positions.Perm (List.range n)) : Reversible n positions where
  perm := h
  after := pick_eq_ok.mpr ⟨perm_within h ((length_invert positions).trans (perm_length h)),
    (invert_picked h).symm⟩
  before := pick_eq_ok.mpr ⟨perm_within (invert_perm h) (perm_length h), (picked_invert h).symm⟩
  twice := invert_invert h
  restored := by
    intro α items hlength
    subst hlength
    have hwithin : Within (invert positions) (picked items positions).length :=
      perm_within (invert_perm h) (length_picked_perm h)
    exact ⟨picked items positions, pick_eq_ok.mpr ⟨.of_perm h, rfl⟩,
      pick_eq_ok.mpr ⟨hwithin, (picked_picked_invert h).symm⟩⟩
  numbers := by
    intro hn
    have hback := shownAt_ofNat (invert_perm h) hn
    rw [invert_invert h] at hback
    exact ⟨shownAt_ofNat h hn, hback⟩

/-- **Exactly the lists of all axes are accepted as permutations.**  For any rank and any numbers
these are as many integers as there are axes, in the range of the rank and apart from each other
once the negative ones are counted from the end.  What they stand for is a permutation, and its
inverse takes it back. -/
theorem permutation_accepts (rank : Number) (axes : List Number) :
    ((∃ positions, permutation rank axes = .ok positions) ↔
      ∃ n entries, rank = .ofNat n ∧ Lists n axes entries) ∧
    ∀ {positions : List Nat}, permutation rank axes = .ok positions →
      ∃ n entries, rank = .ofNat n ∧ Lists n axes entries ∧
        positions.map Int.ofNat = entries.map (counted n) ∧ Reversible n positions := by
  refine ⟨⟨?_, ?_⟩, fun h => ?_⟩
  · rintro ⟨positions, h⟩
    obtain ⟨n, entries, hrank, hlists, _⟩ := permutation_eq_ok.mp h
    exact ⟨n, entries, hrank, hlists⟩
  · rintro ⟨n, entries, rfl, hlists⟩
    exact hlists.accepted
  · obtain ⟨n, entries, hrank, hlists, hpositions⟩ := permutation_eq_ok.mp h
    exact ⟨n, entries, hrank, hlists, hpositions, reversible_of_perm (hlists.perm hpositions)⟩

/-- The last axis of three comes first, counted from the end; a list that names it a second time
as the last one of three is refused. -/
theorem permutation_accepts_turned :
    permutation 3 [.int (-1), 0, 1] = .ok [2, 0, 1] ∧ Reversible 3 [2, 0, 1] ∧
      ¬∃ n entries, (3 : Number) = .ofNat n ∧ Lists n [.int (-1), 0, 2] entries := by
  have haccepted : permutation 3 [.int (-1), 0, 1] = .ok [2, 0, 1] := rfl
  have hrefused : permutation 3 [.int (-1), 0, 2] =
      .error (.range "permute" (.duplicateAxis 2)) := rfl
  obtain ⟨n, _, hrank, _, _, hreversible⟩ := (permutation_accepts 3 _).2 haccepted
  obtain rfl : 3 = n := Number.ofNat_inj hrank
  refine ⟨haccepted, hreversible, fun hlists => ?_⟩
  obtain ⟨positions, hpositions⟩ := (permutation_accepts 3 _).1.mpr hlists
  cases hrefused.symm.trans hpositions

end ShapeGraph.Axis

import Mathlib.Data.List.Nodup
import Mathlib.Data.List.Perm.Subperm
import ShapeGraph.Axis
import ShapeGraph.Proofs.Outcome

/-!
# Lists reordered, extended and cut

A list of positions that are all there picks an item for each of them, and a
permutation picks every item once.

* `picked` — the items at some positions, which is what `pick` gives;
* `position_eq_ok`, `permutation_eq_ok` — which numbers name an axis, and which lists of them
  are accepted as a permutation;
* `permutation_perm` — the numbers accepted as a permutation are one;
* `picked_set`, `picked_insertAt`, `picked_picked` — how picking goes along with
  the changes that views make;
* `forall₂_picked` and its companions — lists that are related item by item stay so if both
  are changed in the same way.
-/

namespace ShapeGraph

/-- Two lists are related item by item if they are at every place. -/
theorem forall₂_iff_getElem? {α β : Type} {R : α → β → Prop} {items : List α} {others : List β} :
    List.Forall₂ R items others ↔ others.length = items.length ∧
      ∀ (k : Nat) (a : α) (b : β), items[k]? = some a → others[k]? = some b → R a b := by
  rw [List.forall₂_iff_get]
  constructor
  · rintro ⟨hlength, hall⟩
    refine ⟨hlength.symm, fun k a b ha hb => ?_⟩
    obtain ⟨hk, rfl⟩ := List.getElem?_eq_some_iff.mp ha
    obtain ⟨hk', rfl⟩ := List.getElem?_eq_some_iff.mp hb
    exact hall k hk hk'
  · rintro ⟨hlength, hall⟩
    exact ⟨hlength.symm, fun k hk hk' =>
      hall k _ _ (List.getElem?_eq_getElem hk) (List.getElem?_eq_getElem hk')⟩

/-- Two lists that are related item by item stay so if related items are put in one place. -/
theorem forall₂_set {α β : Type} {R : α → β → Prop} {items : List α} {others : List β}
    (h : List.Forall₂ R items others) (k : Nat) {a : α} {b : β} (hab : R a b) :
    List.Forall₂ R (items.set k a) (others.set k b) := by
  induction h generalizing k with
  | nil => exact .nil
  | cons hhead htail ih =>
      cases k with
      | zero => exact .cons hab htail
      | succ k => exact .cons hhead (ih k)

end ShapeGraph

namespace ShapeGraph.Axis

open ShapeGraph.Numeric (Number)

variable {α β : Type}

/-! ## Picking -/

/-- The items at some positions, in that order. -/
def picked (items : List α) (positions : List Nat) : List α :=
  positions.filterMap (items[·]?)

/-- All positions are below a length. -/
def Within (positions : List Nat) (length : Nat) : Prop :=
  ∀ p ∈ positions, p < length

/-- The positions of a permutation are all in range. -/
theorem Within.of_perm {positions : List Nat} {n : Nat} (h : positions.Perm (List.range n)) :
    Within positions n :=
  fun _ hp => List.mem_range.mp (h.mem_iff.mp hp)

/-- If all positions are in range then so are the first and the others. -/
theorem Within.cons {p : Nat} {positions : List Nat} {n : Nat} (h : Within (p :: positions) n) :
    p < n ∧ Within positions n :=
  ⟨h p List.mem_cons_self, fun q hq => h q (List.mem_cons_of_mem _ hq)⟩

/-- The item at the first position is picked first. -/
theorem picked_cons {items : List α} {p : Nat} (hp : p < items.length) (positions : List Nat) :
    picked items (p :: positions) = items[p] :: picked items positions := by
  simp [picked, hp]

/-- Each position finds its item. -/
theorem getElem?_picked {items : List α} {positions : List Nat}
    (h : Within positions items.length) (k : Nat) :
    (picked items positions)[k]? = positions[k]?.bind (items[·]?) := by
  induction positions generalizing k with
  | nil => simp [picked]
  | cons p rest ih =>
      rw [picked_cons h.cons.1]
      cases k with
      | zero => simp [h.cons.1]
      | succ k => simpa using ih h.cons.2 k

/-- Every position in range gives one item. -/
theorem length_picked {items : List α} {positions : List Nat}
    (h : Within positions items.length) : (picked items positions).length = positions.length := by
  induction positions with
  | nil => rfl
  | cons p rest ih => simp [picked_cons h.cons.1, ih h.cons.2]

/-- What is picked comes from the list. -/
theorem mem_of_mem_picked {items : List α} {positions : List Nat} {a : α}
    (h : a ∈ picked items positions) : a ∈ items := by
  obtain ⟨p, _, hp⟩ := List.mem_filterMap.mp h
  exact List.mem_of_getElem? hp

/-- A function may be applied to the items before or after they are picked. -/
theorem picked_map (f : α → β) (items : List α) (positions : List Nat) :
    picked (items.map f) positions = (picked items positions).map f := by
  simp only [picked, List.getElem?_map, List.map_filterMap]

/-- The items at all positions in order are the list itself. -/
theorem picked_range (items : List α) : picked items (List.range items.length) = items := by
  have hwithin : Within (List.range items.length) items.length := fun p => List.mem_range.mp
  refine List.ext_getElem? fun k => ?_
  rw [getElem?_picked hwithin]
  by_cases hk : k < items.length
  · simp [hk]
  · simp [hk]

/-- A permutation picks every item once. -/
theorem picked_perm {items : List α} {positions : List Nat}
    (h : positions.Perm (List.range items.length)) : (picked items positions).Perm items := by
  have hpicked := h.filterMap (items[·]?)
  rwa [show (List.range items.length).filterMap (items[·]?) = items from picked_range items]
    at hpicked

/-- Picking twice is picking once by the picked positions. -/
theorem picked_picked {items : List α} {first second : List Nat}
    (hfirst : Within first items.length) (hsecond : Within second first.length) :
    picked (picked items first) second = picked items (picked first second) := by
  have hboth : Within (picked first second) items.length :=
    fun p hp => hfirst p (mem_of_mem_picked hp)
  refine List.ext_getElem? fun k => ?_
  rw [getElem?_picked (by rwa [length_picked hfirst]), getElem?_picked hboth,
    getElem?_picked hsecond]
  cases hk : second[k]? with
  | none => rfl
  | some p => simp [getElem?_picked hfirst]

/-- `pick` finds the items at positions that are all there, and fails on any
other. -/
theorem pick_eq_ok {items picks : List α} {positions : List Nat} :
    pick items (positions.map Number.ofNat) = .ok picks ↔
      Within positions items.length ∧ picks = picked items positions := by
  induction positions generalizing picks with
  | nil => simp [pick, picked, Within, eq_comm]
  | cons p rest ih =>
      by_cases hp : p < items.length
      · have hw : Within (p :: rest) items.length ↔ Within rest items.length := by
          simp [Within, hp]
        simp only [List.map_cons, pick, Number.index?_ofNat, Option.bind_some,
          List.getElem?_eq_getElem hp, bind_eq_ok, pure_eq_ok, ih, hw, picked_cons hp]
        constructor
        · rintro ⟨_, ⟨hrest, rfl⟩, rfl⟩
          exact ⟨hrest, rfl⟩
        · rintro ⟨hrest, rfl⟩
          exact ⟨_, ⟨hrest, rfl⟩, rfl⟩
      · simp [pick, hp, Within]

/-! ## Items put in and taken away -/

/-- Insertion changes the order of the items only, by a new one among them. -/
theorem insertAt_perm (items : List α) (position : Nat) (item : α) :
    (insertAt items position item).Perm (item :: items) := by
  have hmiddle : (insertAt items position item).Perm
      (item :: (items.take position ++ items.drop position)) := List.perm_middle
  rwa [List.take_append_drop] at hmiddle

/-- Insertion makes a list longer by one, wherever it is. -/
@[simp] theorem length_insertAt (items : List α) (position : Nat) (item : α) :
    (insertAt items position item).length = items.length + 1 :=
  (insertAt_perm items position item).length_eq

/-- A function may be applied before or after the insertion. -/
theorem map_insertAt (f : α → β) (items : List α) (position : Nat) (item : α) :
    (insertAt items position item).map f = insertAt (items.map f) position (f item) := by
  simp [insertAt]

theorem map_removeAt (f : α → β) (items : List α) (position : Nat) :
    (removeAt items position).map f = removeAt (items.map f) position := by
  simp [removeAt, without]

/-- What is left after a removal was there before. -/
theorem mem_of_mem_removeAt {items : List α} {position : Nat} {a : α}
    (h : a ∈ removeAt items position) : a ∈ items := by
  rcases List.mem_append.mp h with h | h
  · exact List.mem_of_mem_take h
  · exact List.mem_of_mem_drop h

/-- A new item at the end, shown at some position, is put in there. -/
theorem picked_insertAt {items : List α} {positions : List Nat}
    (h : Within positions items.length) (position : Nat) (item : α) :
    picked (items ++ [item]) (insertAt positions position items.length) =
      insertAt (picked items positions) position item := by
  have hold : ∀ ps : List Nat, Within ps items.length →
      picked (items ++ [item]) ps = picked items ps := by
    intro ps hps
    refine List.filterMap_congr fun p hp => ?_
    exact List.getElem?_append_left (hps p hp)
  have htake : picked items (positions.take position) =
      (picked items positions).take position := by
    refine List.ext_getElem? fun k => ?_
    rw [getElem?_picked fun p hp => h p (List.mem_of_mem_take hp), List.getElem?_take,
      List.getElem?_take, getElem?_picked h]
    split <;> rfl
  have hdrop : picked items (positions.drop position) =
      (picked items positions).drop position := by
    refine List.ext_getElem? fun k => ?_
    rw [getElem?_picked fun p hp => h p (List.mem_of_mem_drop hp), List.getElem?_drop,
      List.getElem?_drop, getElem?_picked h]
  have hnew : picked (items ++ [item]) [items.length] = [item] := by
    simp [picked]
  calc picked (items ++ [item]) (insertAt positions position items.length)
      = picked (items ++ [item]) (positions.take position) ++
          (picked (items ++ [item]) [items.length] ++
            picked (items ++ [item]) (positions.drop position)) := by
        simp [picked, insertAt, List.filterMap_append]
    _ = insertAt (picked items positions) position item := by
        rw [hold _ fun p hp => h p (List.mem_of_mem_take hp),
          hold _ fun p hp => h p (List.mem_of_mem_drop hp), hnew, htake, hdrop]
        rfl

/-- An item replaced where one position finds it is replaced there alone. -/
theorem picked_set {items : List α} {positions : List Nat} (hwithin : Within positions items.length)
    (hnodup : positions.Nodup) {k p : Nat} (hp : positions[k]? = some p) (item : α) :
    picked (items.set p item) positions = (picked items positions).set k item := by
  have hk : k < positions.length := (List.getElem?_eq_some_iff.mp hp).1
  refine List.ext_getElem? fun j => ?_
  rw [getElem?_picked (by simpa [Within] using hwithin), List.getElem?_set,
    getElem?_picked hwithin, length_picked hwithin]
  by_cases hj : k = j
  · subst hj
    rw [hp]
    simp [hk, hwithin p (List.mem_of_getElem? hp)]
  · cases hq : positions[j]? with
    | none => simp [hj]
    | some q =>
        have hne : p ≠ q := fun heq =>
          hj ((List.getElem?_inj hk hnodup).mp (by rw [hp, hq, heq]))
        simp [hj, hne]

/-! ## Related lists -/

section

variable {R : α → β → Prop} {items : List α} {others : List β}

/-- Two lists that are related item by item stay so when both lose the item at a position. -/
theorem forall₂_removeAt (h : List.Forall₂ R items others) (position : Nat) :
    List.Forall₂ R (removeAt items position) (removeAt others position) :=
  List.rel_append (List.forall₂_take position h) (List.forall₂_drop (position + 1) h)

/-- Two lists that are related stay so when related items are inserted at one position. -/
theorem forall₂_insertAt (h : List.Forall₂ R items others) (position : Nat) {a : α} {b : β}
    (hab : R a b) :
    List.Forall₂ R (insertAt items position a) (insertAt others position b) :=
  List.rel_append (List.forall₂_take position h) (.cons hab (List.forall₂_drop position h))

theorem forall₂_dropLast (h : List.Forall₂ R items others) :
    List.Forall₂ R items.dropLast others.dropLast := by
  rw [List.dropLast_eq_take, List.dropLast_eq_take, ← h.length_eq]
  exact List.forall₂_take _ h

/-- Two lists that are related stay so when the same positions are picked from both. -/
theorem forall₂_picked (h : List.Forall₂ R items others) {positions : List Nat}
    (hwithin : Within positions items.length) :
    List.Forall₂ R (picked items positions) (picked others positions) := by
  induction positions with
  | nil => exact .nil
  | cons p rest ih =>
      have hp : p < others.length := h.length_eq ▸ hwithin.cons.1
      rw [picked_cons hwithin.cons.1, picked_cons hp]
      exact .cons ((List.forall₂_iff_get.mp h).2 p hwithin.cons.1 hp) (ih hwithin.cons.2)

end

/-! ## Axes and permutations -/

/-- Where an integer stands among `n` axes: a negative one counts from the end. -/
def counted (n : Nat) (entry : Int) : Int :=
  if entry < 0 then n + entry else entry

/-- A position that counts from the front is left alone. -/
@[simp] theorem counted_natCast (n k : Nat) : counted n k = k :=
  if_neg (by omega)

/-- Positions that all count from the front are left alone. -/
theorem map_counted (n : Nat) (positions : List Nat) :
    (positions.map Int.ofNat).map (counted n) = positions.map Int.ofNat := by
  rw [List.map_map]
  exact congrArg (positions.map ·) (funext (counted_natCast n))

/-- An integer in the range of the rank stands for one of the axes. -/
theorem counted_range {n : Nat} {a : Int} (h : -(n : Int) ≤ a ∧ a < n) :
    0 ≤ counted n a ∧ counted n a < n := by
  unfold counted
  split <;> omega

/-- **A number names an axis** just if it is an integer from minus the rank on and below it. -/
theorem position_eq_ok {operation : String} {axis : Number} {n k : Nat} :
    position operation axis n = .ok k ↔
      ∃ a : Int, axis = .int a ∧ (-(n : Int) ≤ a ∧ a < n) ∧ counted n a = k := by
  cases axis with
  | int a =>
      simp only [position, outOfBounds, counted, ite_ok_eq_ok, Number.int.injEq, exists_eq_left']
      constructor
      · rintro ⟨hmoved, rfl⟩
        refine ⟨?_, (Int.toNat_of_nonneg hmoved.1).symm⟩
        split at hmoved <;> omega
      · rintro ⟨ha, hk⟩
        rw [hk]
        split at hk <;> omega
  | real x => simp [position, outOfBounds]
  | undefined which => simp [position, outOfBounds]

/-- A position that has been accepted is one of the rank. -/
theorem position_lt {operation : String} {axis : Number} {rank k : Nat}
    (h : position operation axis rank = .ok k) : k < rank := by
  obtain ⟨a, _, ha, hk⟩ := position_eq_ok.mp h
  exact Int.ofNat_lt.mp (hk ▸ (counted_range ha).2)

/-- The position of an axis is the axis itself. -/
@[simp] theorem position_ofNat {operation : String} {rank k : Nat} (h : k < rank) :
    position operation (.ofNat k) rank = .ok k :=
  position_eq_ok.mpr ⟨k, rfl, by omega, counted_natCast rank k⟩

/-- Integers list the axes of a rank: there are as many of them as axes, each is in the range of
the rank, and no two of them stand for the same axis. -/
structure Lists (n : Nat) (axes : List Number) (entries : List Int) : Prop where
  axes_eq : axes = entries.map .int
  length_eq : axes.length = n
  range : ∀ a ∈ entries, -(n : Int) ≤ a ∧ a < n
  distinct : (entries.map (counted n)).Nodup

/-- What is accepted as distinct positions: integers in the range of the rank, none of which
stands for the position of another one or for one that has been seen. -/
theorem distinct_eq_ok {n : Nat} {seen : List Nat} {axes : List Number} {positions : List Nat} :
    distinct n seen axes = .ok positions ↔
      ∃ entries : List Int, axes = entries.map .int ∧ (∀ a ∈ entries, -(n : Int) ≤ a ∧ a < n) ∧
        positions.map Int.ofNat = entries.map (counted n) ∧ positions.Nodup ∧
        ∀ p ∈ positions, p ∉ seen := by
  induction axes generalizing seen positions with
  | nil =>
      constructor
      · intro h
        obtain rfl := Except.ok.inj h
        exact ⟨[], rfl, List.forall_mem_nil _, rfl, List.nodup_nil, List.forall_mem_nil _⟩
      · rintro ⟨entries, hentries, _, hpositions, _⟩
        obtain rfl := List.map_eq_nil_iff.mp hentries.symm
        obtain rfl := List.map_eq_nil_iff.mp hpositions
        rfl
  | cons axis rest ih =>
      simp only [distinct, bind_eq_ok, ite_error_eq_ok, pure_eq_ok, position_eq_ok, ih]
      -- what has been seen grows by the head, so the tail keeps apart from that as well
      constructor
      · rintro ⟨k, ⟨a, rfl, ha, hk⟩, hfresh, others,
          ⟨entries, rfl, hall, hothers, hnodup, hseen⟩, rfl⟩
        refine ⟨a :: entries, rfl, List.forall_mem_cons.mpr ⟨ha, hall⟩, ?_, ?_, ?_⟩
        · rw [List.map_cons, List.map_cons, hothers, hk]
          rfl
        · exact List.nodup_cons.mpr ⟨fun hmem => hseen k hmem List.mem_cons_self, hnodup⟩
        · exact List.forall_mem_cons.mpr
            ⟨hfresh, fun p hp hmem => hseen p hp (List.mem_cons_of_mem _ hmem)⟩
      · rintro ⟨entries, hentries, hall, hpositions, hnodup, hseen⟩
        obtain ⟨a, entries, rfl, rfl, rfl⟩ := List.map_eq_cons_iff.mp hentries.symm
        obtain ⟨k, others, rfl, hk, hothers⟩ := List.map_eq_cons_iff.mp hpositions
        obtain ⟨hlater, hnodup⟩ := List.nodup_cons.mp hnodup
        obtain ⟨ha, hall⟩ := List.forall_mem_cons.mp hall
        obtain ⟨hfresh, hseen⟩ := List.forall_mem_cons.mp hseen
        refine ⟨k, ⟨a, rfl, ha, hk.symm⟩, hfresh, others,
          ⟨entries, rfl, hall, hothers, hnodup, fun p hp hmem => ?_⟩, rfl⟩
        rcases List.mem_cons.mp hmem with rfl | hmem
        · exact hlater hp
        · exact hseen p hp hmem

/-- Natural numbers repeat no value just if the integers that they are do not. -/
theorem nodup_of_map_ofNat {positions : List Nat} {entries : List Int}
    (h : positions.map Int.ofNat = entries) : positions.Nodup ↔ entries.Nodup := by
  rw [← h, List.nodup_map_iff fun _ _ => Int.ofNat.inj]

/-- **Numbers are accepted as a permutation** just if they list the axes of the rank; it holds
the positions that they stand for, in their order. -/
theorem permutation_eq_ok {rank : Number} {axes : List Number} {positions : List Nat} :
    permutation rank axes = .ok positions ↔
      ∃ n entries, rank = .ofNat n ∧ Lists n axes entries ∧
        positions.map Int.ofNat = entries.map (counted n) := by
  unfold permutation
  constructor
  · intro h
    split at h
    · next hrank =>
      obtain ⟨entries, haxes, hrange, hpositions, hnodup, _⟩ := distinct_eq_ok.mp h
      exact ⟨axes.length, entries, hrank.symm,
        ⟨haxes, rfl, hrange, (nodup_of_map_ofNat hpositions).mp hnodup⟩, hpositions⟩
    · cases h
  · rintro ⟨n, entries, rfl, hlists, hpositions⟩
    rw [if_pos (congrArg Number.ofNat hlists.length_eq), hlists.length_eq]
    exact distinct_eq_ok.mpr ⟨entries, hlists.axes_eq, hlists.range, hpositions,
      (nodup_of_map_ofNat hpositions).mpr hlists.distinct, fun _ _ => List.not_mem_nil⟩

/-- Integers that list the axes stand for all of them: there are no more axes than integers, and
these stand for different ones. -/
theorem Lists.perm {n : Nat} {axes : List Number} {entries : List Int} {positions : List Nat}
    (h : Lists n axes entries) (hpositions : positions.map Int.ofNat = entries.map (counted n)) :
    positions.Perm (List.range n) := by
  have hnodup : positions.Nodup := (nodup_of_map_ofNat hpositions).mpr h.distinct
  have hsub : positions ⊆ List.range n := by
    intro p hp
    have hmem : Int.ofNat p ∈ entries.map (counted n) := hpositions ▸ List.mem_map_of_mem hp
    obtain ⟨a, ha, hap⟩ := List.mem_map.mp hmem
    have hlt : Int.ofNat p < n := hap ▸ (counted_range (h.range a ha)).2
    exact List.mem_range.mpr (Int.ofNat_lt.mp hlt)
  have hlength : positions.length = n := by
    have hmaps := congrArg List.length hpositions
    rw [List.length_map, List.length_map] at hmaps
    rw [hmaps, ← h.length_eq, h.axes_eq, List.length_map]
  exact (List.subperm_of_subset hnodup hsub).perm_of_length_le (by simp [hlength])

/-- **Numbers accepted as a permutation are one.** -/
theorem permutation_perm {rank : Nat} {axes : List Number} {positions : List Nat}
    (h : permutation (.ofNat rank) axes = .ok positions) :
    positions.Perm (List.range rank) := by
  obtain ⟨n, entries, hrank, hlists, hpositions⟩ := permutation_eq_ok.mp h
  obtain rfl : rank = n := Number.ofNat_inj hrank
  exact hlists.perm hpositions

/-- A permutation of plain positions is the list of them. -/
theorem permutation_ofNat {rank : Nat} {positions others : List Nat}
    (h : permutation (.ofNat rank) (positions.map .ofNat) = .ok others) : others = positions := by
  obtain ⟨n, entries, _, hlists, hothers⟩ := permutation_eq_ok.mp h
  have hentries : entries = positions.map Int.ofNat :=
    (List.map_injective_iff.mpr fun _ _ => Number.int.inj) (by
      rw [← hlists.axes_eq, List.map_map]
      rfl)
  rw [hentries, map_counted] at hothers
  exact (List.map_injective_iff.mpr fun _ _ => Int.ofNat.inj) hothers

end ShapeGraph.Axis

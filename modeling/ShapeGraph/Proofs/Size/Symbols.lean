import ShapeGraph.Proofs.Size.Irreducible
import ShapeGraph.Report

/-!
# The symbols of a size decide what becomes of it

Putting sizes together asks for no symbol that is not in one of them, and rules may do away
with some.  So what a size becomes under a binding depends on its own symbols only, and what
is left of them is not bound.  A normal form without symbols is a literal, as two literals
always fold.  Hence evaluation misses a symbol exactly if one is left over, and names those
that are; anything else that can stop it is a division by zero.

* `mem_names_of_combine`, `mem_names_of_substitute` — where the symbols of a result come
  from;
* `substitute_congr` — bindings that agree on the symbols of a size;
* `Normal.literal_iff` — the normal forms without symbols are the literals;
* `evaluate_cases` — the three ways in which an evaluation can end;
* `Recipe.symbols_decide` — all of this for every size that can be made.
-/

namespace ShapeGraph

open ShapeGraph.Numeric (Arithmetic Exact Number Unbounded)

/-! ## Sorted names -/

/-- Erasing repetitions leaves none. -/
theorem nodup_eraseDups {α : Type} [BEq α] [LawfulBEq α] (items : List α) :
    items.eraseDups.Nodup := by
  induction h : items.length using Nat.strongRecOn generalizing items with
  | ind n ih =>
      cases items with
      | nil => simp
      | cons item rest =>
          subst h
          have hshorter : (rest.filter fun other => !other == item).length < rest.length + 1 :=
            Nat.lt_succ_of_le (List.length_filter_le _ _)
          rw [List.eraseDups_cons, List.nodup_cons, List.mem_eraseDups]
          exact ⟨by simp, ih _ hshorter _ rfl⟩

namespace Size

/-- No symbol is reported twice. -/
theorem symbols_nodup (s : Size) : s.symbols.Nodup :=
  (List.mergeSort_perm _ _).nodup_iff.mpr (nodup_eraseDups s.names)

/-- The symbols are reported in order. -/
theorem symbols_sorted (s : Size) :
    s.symbols.Pairwise fun first second => Text.unitsLe first second = true :=
  Text.sortNames_pairwise _

/-- A term reports no symbols if it has none. -/
theorem symbols_eq_nil {s : Size} : s.symbols = [] ↔ s.names = [] := by
  simp only [List.eq_nil_iff_forall_not_mem, mem_symbols]

/-! ## Where symbols come from -/

section

variable [Arithmetic] {bindings other : Bindings} {s t l r : Size} {name : String}

/-- Adding a literal brings in no symbol. -/
theorem mem_names_of_addLiteral {v : Number} (h : name ∈ (s.addLiteral v).names) :
    name ∈ s.names := by
  fun_induction addLiteral s v with
  | case1 a v => cases h
  | case2 base c => exact h
  | case3 base c v hzero ih => exact List.mem_append_left _ (ih h)
  | case4 t => exact h
  | case5 t v => simpa [names] using h

theorem mem_names_of_mulLiteral {v : Number} (h : name ∈ (s.mulLiteral v).names) :
    name ∈ s.names := by
  fun_induction mulLiteral s v with
  | case1 a v => cases h
  | case2 base c => cases h
  | case3 base c => exact h
  | case4 base c v hzero hone ih => exact List.mem_append_left _ (ih h)
  | case5 t => cases h
  | case6 t => exact h
  | case7 t v => simpa [names] using h

theorem mem_names_of_boundLiteral {op : Operator} {v : Number}
    (h : name ∈ (s.boundLiteral op v).names) : name ∈ s.names := by
  fun_induction boundLiteral op s v with
  | case1 a v => cases h
  | case2 base c v ih => exact List.mem_append_left _ (ih h)
  | case3 inner base c v hne => simpa [names] using h
  | case4 t v => simpa [names] using h

/-- **Putting sizes together asks for no new symbol.** -/
theorem mem_names_of_combine {op : Operator} (h : combine op l r = .ok t)
    (hname : name ∈ t.names) : name ∈ l.names ++ r.names := by
  have hkept : t = binary op l r → name ∈ l.names ++ r.names := by
    intro ht
    rw [ht] at hname
    exact hname
  cases op with
  | add =>
      obtain rfl : l.add r = t := Except.ok.inj h
      unfold add at hname hkept
      split at hname
      · exact List.mem_append_left _ (mem_names_of_addLiteral hname)
      · exact List.mem_append_right _ (mem_names_of_addLiteral hname)
      · exact hname
  | sub =>
      obtain rfl : l.sub r = t := Except.ok.inj h
      rcases sub_cases l r with ⟨v, hv⟩ | ⟨v, _, hoffset⟩ | hd
      · rw [hv] at hname
        cases hname
      · rw [hoffset] at hname
        exact List.mem_append_left _ (mem_names_of_addLiteral hname)
      · rw [hd] at hname
        exact hname
  | mul =>
      obtain rfl : l.mul r = t := Except.ok.inj h
      unfold mul at hname
      split at hname
      · exact List.mem_append_left _ (mem_names_of_mulLiteral hname)
      · exact List.mem_append_right _ (mem_names_of_mulLiteral hname)
      · exact hname
  | div =>
      rcases div_cases h with ⟨v, rfl⟩ | rfl | ht
      · cases hname
      · exact List.mem_append_left _ hname
      · exact hkept ht
  | min | max =>
      rw [combine_bound (by simp)] at h
      obtain rfl := Except.ok.inj h
      unfold extremum at hname
      split at hname
      · exact List.mem_append_left _ (mem_names_of_boundLiteral hname)
      · exact List.mem_append_right _ (mem_names_of_boundLiteral hname)
      · split at hname
        · exact List.mem_append_left _ hname
        · exact hname

/-- **What is left of the symbols** of a size under a binding is not bound. -/
theorem mem_names_of_substitute (h : s.substitute bindings = .ok t) (hname : name ∈ t.names) :
    name ∈ s.names ∧ bindings.get? name = none := by
  induction s generalizing t with
  | literal v =>
      obtain rfl := substitute_literal.mp h
      cases hname
  | symbol held =>
      rw [substitute_symbol] at h
      cases hv : bindings.get? held with
      | some v =>
          rw [hv] at h
          obtain rfl := Except.ok.inj h
          cases hname
      | none =>
          rw [hv] at h
          obtain rfl := Except.ok.inj h
          obtain rfl := List.mem_singleton.mp hname
          exact ⟨hname, hv⟩
  | binary op l r ihl ihr =>
      obtain ⟨l', r', hl, hr, hc⟩ := substitute_binary_ok h
      rcases List.mem_append.mp (mem_names_of_combine hc hname) with hleft | hright
      · obtain ⟨hmem, hfree⟩ := ihl hl hleft
        exact ⟨List.mem_append_left _ hmem, hfree⟩
      · obtain ⟨hmem, hfree⟩ := ihr hr hright
        exact ⟨List.mem_append_right _ hmem, hfree⟩

/-- **Only the symbols of a size matter** to what becomes of it, and to the fault if nothing
does. -/
theorem substitute_congr (h : ∀ name ∈ s.names, bindings.get? name = other.get? name) :
    s.substitute bindings = s.substitute other := by
  induction s with
  | literal v => rfl
  | symbol name => rw [substitute_symbol, substitute_symbol, h name (List.mem_singleton.mpr rfl)]
  | binary op l r ihl ihr =>
      obtain ⟨hleft, hright⟩ := List.forall_mem_append.mp h
      rw [substitute, substitute, ihl hleft, ihr hright]

/-! ## Sizes without symbols -/

/-- **The normal forms without symbols are the literals.** -/
theorem Normal.literal_iff (hs : s.Normal) : s.value?.isSome = true ↔ s.symbols = [] := by
  rw [symbols_eq_nil]
  induction s with
  | literal v => simp [value?, names]
  | symbol name => simp [value?, names]
  | binary op l r ihl ihr =>
      obtain ⟨hl, hr, hkept⟩ := hs
      refine iff_of_false (by simp [value?]) fun hclosed => ?_
      obtain ⟨hleft, hright⟩ := List.append_eq_nil_iff.mp hclosed
      obtain ⟨a, ha⟩ := Option.isSome_iff_exists.mp ((ihl hl).mpr hleft)
      obtain ⟨b, hb⟩ := Option.isSome_iff_exists.mp ((ihr hr).mpr hright)
      obtain rfl := value?_eq_some.mp ha
      obtain rfl := value?_eq_some.mp hb
      -- two literals fold, or they divide by zero
      by_cases hzero : op = .div ∧ b = 0
      · obtain ⟨rfl, rfl⟩ := hzero
        have hdiv : (literal a).div (literal 0) = .ok (binary .div (literal a) (literal 0)) := hkept
        exact div_by_zero hdiv
      · rw [combine_literals fun hop hb => hzero ⟨hop, hb⟩] at hkept
        cases hkept

/-! ## How an evaluation ends -/

/-- Sizes cannot be put together only if that divides by zero. -/
theorem combine_fault {op : Operator} {fault : Fault} (h : combine op l r = .error fault) :
    fault.report.code? = some "DIVISION_BY_ZERO" := by
  cases op with
  | div =>
      have hdiv : l.div r = .error fault := h
      unfold div at hdiv
      split at hdiv
      · split at hdiv
        · cases hdiv
          rfl
        · cases hdiv
      · split at hdiv
        · cases hdiv
          rfl
        · split at hdiv <;> cases hdiv
      · split at hdiv <;> cases hdiv
      · cases hdiv
  | add | sub | mul | min | max => cases h

/-- A size cannot be rebuilt only if that divides by zero. -/
theorem substitute_fault {fault : Fault} (h : s.substitute bindings = .error fault) :
    fault.report.code? = some "DIVISION_BY_ZERO" := by
  induction s with
  | literal v => cases h
  | symbol name =>
      rw [substitute_symbol] at h
      cases h
  | binary op l r ihl ihr =>
      rw [substitute] at h
      rcases bind_eq_error.mp h with hl | ⟨l', _, h⟩
      · exact ihl hl
      · rcases bind_eq_error.mp h with hr | ⟨r', _, hc⟩
        · exact ihr hr
        · exact combine_fault hc

/-- **An evaluation ends** in the number that the size becomes, in a division by zero, or in
the report of what is left of its symbols. -/
theorem evaluate_cases (bindings : Bindings) (s : Size) :
    (∃ v, s.substitute bindings = .ok (literal v) ∧ s.evaluate bindings = .ok v) ∨
      (∃ fault, s.evaluate bindings = .error fault ∧
        fault.report.code? = some "DIVISION_BY_ZERO") ∨
      ∃ t, s.substitute bindings = .ok t ∧ t.symbols ≠ [] ∧
        s.evaluate bindings = .error (.size (.unresolved s t.symbols)) := by
  unfold evaluate
  cases h : s.substitute bindings with
  | error fault => exact .inr (.inl ⟨fault, rfl, substitute_fault h⟩)
  | ok t =>
      cases hv : t.value? with
      | some v =>
          refine .inl ⟨v, congrArg Except.ok (value?_eq_some.mp hv), ?_⟩
          simp [bind, Except.bind, hv]
      | none =>
          refine .inr (.inr ⟨t, rfl, ?_, by simp [bind, Except.bind, hv]⟩)
          intro hclosed
          have hliteral := (substitute_normal h).literal_iff.mpr hclosed
          rw [hv] at hliteral
          cases hliteral

/-- Once all symbols of a size are bound none is left over. -/
theorem symbols_of_bound (h : ∀ name ∈ s.symbols, bindings.Bound name)
    (ht : s.substitute bindings = .ok t) : t.symbols = [] := by
  rw [symbols_eq_nil, List.eq_nil_iff_forall_not_mem]
  intro name hname
  obtain ⟨hmem, hfree⟩ := mem_names_of_substitute ht hname
  obtain ⟨v, hv⟩ := h name (mem_symbols.mpr hmem)
  rw [hfree] at hv
  cases hv

end

/-! ## Sizes that can be made -/

/-- Two outcomes are structurally equal sizes, or the same fault. -/
inductive Alike : Except Fault Size → Except Fault Size → Prop
  | ok {s t : Size} (h : s.same t = true) : Alike (.ok s) (.ok t)
  | error (fault : Fault) : Alike (.error fault) (.error fault)

/-- An outcome of integers is like itself. -/
theorem alike_self {outcome : Except Fault Size} (h : ∀ t, outcome = .ok t → t.Integral) :
    Alike outcome outcome := by
  cases outcome with
  | error fault => exact .error fault
  | ok t => exact .ok ((same_iff (h t rfl) (h t rfl)).mpr rfl)

end Size

namespace Recipe

/-- **Free symbols decide evaluation.**  A size that has been made is a number just if it has
no symbols.  Bindings that agree on its symbols make the same of it, or fail alike, and the
symbols of what they make are symbols of the size that are not bound.  If all of its symbols
are bound then it evaluates to a number, or divides by zero.  If symbols are reported as missing then
there are some, listed once each and in order, and they are symbols of the size that are not
bound. -/
theorem symbols_decide {r : Recipe} {s : Size} {bindings other : Bindings} (hr : r.Integral)
    (hmade : Exact fun _ => r.size) (hs : r.size = .ok s) (hb : bindings.Integral)
    (hbound : Exact fun _ => s.substitute bindings) :
    (s.value?.isSome = true ↔ s.symbols = []) ∧
    ((∀ name ∈ s.symbols, bindings.get? name = other.get? name) →
      Size.Alike (s.substitute bindings) (s.substitute other)) ∧
    (∀ t, s.substitute bindings = .ok t →
      ∀ name ∈ t.symbols, name ∈ s.symbols ∧ bindings.get? name = none) ∧
    ((∀ name ∈ s.symbols, bindings.Bound name) →
      (∃ n : Int, s.evaluate bindings = .ok (.int n)) ∨
      ∃ fault, s.evaluate bindings = .error fault ∧
        fault.report.code? = some "DIVISION_BY_ZERO") ∧
    ∀ u names, s.evaluate bindings = .error (.size (.unresolved u names)) →
      u = s ∧ names ≠ [] ∧ names.Nodup ∧
        (names.Pairwise fun first second => Text.unitsLe first second = true) ∧
        ∀ name ∈ names, name ∈ s.symbols ∧ bindings.get? name = none := by
  have hsi : s.Integral := @size_integral .unbounded _ r s hr (hmade.symm.trans hs)
  have hmadeOf : ∀ t, s.substitute bindings = .ok t → t.Integral := by
    intro t ht
    exact @Size.substitute_integral .unbounded _ _ s t hsi hb (hbound.symm.trans ht)
  have hleft : ∀ t, s.substitute bindings = .ok t →
      ∀ name ∈ t.symbols, name ∈ s.symbols ∧ bindings.get? name = none := by
    intro t ht name hname
    obtain ⟨hmem, hfree⟩ := Size.mem_names_of_substitute ht (Size.mem_symbols.mp hname)
    exact ⟨Size.mem_symbols.mpr hmem, hfree⟩
  have hends := Size.evaluate_cases bindings s
  refine ⟨(size_normal hs).literal_iff, fun hagree => ?_, hleft, fun hall => ?_, ?_⟩
  · have hsame : s.substitute bindings = s.substitute other :=
      Size.substitute_congr fun name hname => hagree name (Size.mem_symbols.mpr hname)
    rw [← hsame]
    exact Size.alike_self hmadeOf
  · rcases hends with ⟨v, ht, hv⟩ | hzero | ⟨t, ht, hsome, _⟩
    · obtain ⟨n, rfl⟩ := hmadeOf _ ht
      exact .inl ⟨n, hv⟩
    · exact .inr hzero
    · exact absurd (Size.symbols_of_bound hall ht) hsome
  · intro u names hmissing
    rcases hends with ⟨v, _, hv⟩ | ⟨fault, hfault, hcode⟩ | ⟨t, ht, hsome, hreport⟩
    · cases hv.symm.trans hmissing
    · obtain rfl := Except.error.inj (hfault.symm.trans hmissing)
      simp [Fault.report, SizeFault.report, Report.unresolved, Report.code?] at hcode
    · cases hreport.symm.trans hmissing
      exact ⟨rfl, hsome, t.symbols_nodup, t.symbols_sorted, hleft t ht⟩

/-- With only `x` bound, `x * y / (x - z)` misses `y` and `z`, and a value for `w` makes no
difference.  With all of its symbols bound it divides by zero if `z` is `x`. -/
theorem symbols_decide_quotient :
    let r := binary .div (binary .mul (symbol "x") (symbol "y"))
      (binary .sub (symbol "x") (symbol "z"))
    let s := Size.binary .div (.binary .mul (.symbol "x") (.symbol "y"))
      (.binary .sub (.symbol "x") (.symbol "z"))
    r.size = .ok s ∧
      Size.Alike (s.substitute [("x", 3)]) (s.substitute [("x", 3), ("w", 9)]) ∧
      (∃ names, s.evaluate [("x", 3)] = .error (.size (.unresolved s names)) ∧ names.Nodup ∧
        ∀ name ∈ names, name ∈ s.symbols ∧ Entries.get? [("x", Number.int 3)] name = none) ∧
      ∃ fault, s.evaluate [("x", 3), ("y", 2), ("z", 3)] = .error fault ∧
        fault.report.code? = some "DIVISION_BY_ZERO" := by
  intro r s
  have hr : r.Integral := ⟨⟨trivial, trivial⟩, trivial, trivial⟩
  have hs : r.size = .ok s := rfl
  have hx : Bindings.Integral [("x", 3)] := Bindings.integral_nil.cons "x" 3
  have hall : Bindings.Integral [("x", 3), ("y", 2), ("z", 3)] :=
    ((Bindings.integral_nil.cons "z" 3).cons "y" 2).cons "x" 3
  have hpartly := @symbols_decide r s _ [("x", 3), ("w", 9)] hr (.of_eq _ rfl rfl) hs hx
    (.of_eq _ rfl rfl)
  have hwholly := @symbols_decide r s _ [] hr (.of_eq _ rfl rfl) hs hall (.of_eq _ rfl rfl)
  refine ⟨hs, hpartly.2.1 ?_, ⟨_, rfl, ?_⟩, ?_⟩
  · simp [s, Size.names, Entries.get?]
  · obtain ⟨_, _, hnodup, _, hfree⟩ := hpartly.2.2.2.2 _ _ rfl
    exact ⟨hnodup, hfree⟩
  · rcases hwholly.2.2.2.1 (by simp [s, Size.names, Bindings.Bound, Entries.get?]) with
      ⟨n, hn⟩ | hzero
    · cases hn
    · exact hzero

end Recipe

end ShapeGraph

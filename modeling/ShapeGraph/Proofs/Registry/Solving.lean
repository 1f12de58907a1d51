import ShapeGraph.Proofs.Registry.WriteOnce
import ShapeGraph.Proofs.Resolution.Between
import ShapeGraph.Proofs.Size.Symbols

/-!
# What unification solves

A unification looks at what is left of a size under the bindings so far.  If that is a number
there is nothing to solve, and if it is a bare symbol the symbol is bound.  A compound size may
come down to a bare symbol too, once an offset is cancelled or a term is zero.  The binding
solves the size itself and not only what is left of it, as substituting in two stages comes to
the same as substituting at once.  A divisor that is still open may come to zero, though, and
then the size has no value at all.

* `Environment.Solves` — how a unification ends, by what is left of the size;
* `Environment.evaluate_of_bound` — what a size comes to once the symbol left of it is bound;
* `Environment.solves_of_sound` — one unification in a sound environment;
* `Registry.unify_solves` — unification in every environment that calls lead to, for every size
  that can be made.
-/

namespace ShapeGraph

open ShapeGraph.Numeric (Arithmetic Exact Number Unbounded)

namespace Environment

/-- How the unification of a size with a value ends in an environment. -/
structure Solves [Arithmetic] (env : Environment) (size : Size) (value : Number) (source : Source)
    (ending : Except Fault Environment) : Prop where
  /-- Once it has succeeded the size has the value, or a divisor in it has become zero. -/
  solved : ∀ env', ending = .ok env' → size.evaluate env'.bindings = .ok value ∨
    ∃ d ∈ size.divisors, d.evaluate env.bindings ≠ .ok 0 ∧ d.evaluate env'.bindings = .ok 0
  /-- A size that is known has to have the value, and nothing is bound. -/
  known : ∀ v, size.evaluate env.bindings = .ok v →
    ∀ env', ending = .ok env' ↔ v = value ∧ env' = env
  /-- What is left with symbols and is more than a bare one is reported as unresolved, with these
  symbols: there are some, they are symbols of the size, and none of them is bound. -/
  unresolved : ∀ t, size.substitute env.bindings = .ok t → t.value? = none → t.symbol? = none →
    ending = .error (.size (.unresolved t t.symbols)) ∧ t.symbols ≠ [] ∧
      ∀ name ∈ t.symbols, name ∈ size.symbols ∧ env.get? name = none
  /-- A bare symbol takes every size and no other value, and this one binding is new. -/
  bare : ∀ name, size.substitute env.bindings = .ok (.symbol name) →
    ∀ env', ending = .ok env' ↔
      IsSize value ∧ env' = ⟨env.entries ++ [⟨name, value, source⟩]⟩
  /-- Where the bindings make a divisor zero, that is the fault. -/
  divided : ∀ fault, size.substitute env.bindings = .error fault →
    ending = .error fault ∧ fault.report.code? = some "DIVISION_BY_ZERO"

/-! ## What is left of a size -/

/-- What is left of a size with symbols in it is not known, and these symbols are not bound. -/
theorem symbols_left [Arithmetic] {env : Environment} {size t : Size}
    (ht : size.substitute env.bindings = .ok t) (hopen : t.value? = none) :
    t.symbols ≠ [] ∧ ∀ name ∈ t.symbols, name ∈ size.symbols ∧ env.get? name = none := by
  constructor
  · intro hclosed
    have hliteral := (Size.substitute_normal ht).literal_iff.mpr hclosed
    rw [hopen] at hliteral
    cases hliteral
  · intro name hname
    obtain ⟨hmem, hfree⟩ := Size.mem_names_of_substitute ht (Size.mem_symbols.mp hname)
    exact ⟨Size.mem_symbols.mpr hmem, get?_bindings env name ▸ hfree⟩

/-- Where an evaluation divides by zero, a divisor in the size is zero. -/
theorem zero_divisor [Arithmetic] {size : Size} {bindings : Bindings} {fault : Fault}
    (hsize : size.Integral) (h : size.evaluate bindings = .error fault)
    (hcode : fault.report.code? = some "DIVISION_BY_ZERO") :
    ∃ d ∈ size.divisors, d.evaluate bindings = .ok 0 := by
  by_contra hnone
  have hregular : size.Regular bindings := ⟨hsize, fun d hd hzero => hnone ⟨d, hd, hzero⟩⟩
  obtain ⟨t, ht⟩ := hregular.substitute_ok
  unfold Size.evaluate at h
  rcases bind_eq_error.mp h with hfault | ⟨_, _, hrest⟩
  · cases ht.symm.trans hfault
  · -- all that is left to fail is the report of missing symbols
    split at hrest
    · cases hrest
    · cases hrest
      simp [Fault.report, SizeFault.report, Report.unresolved, Report.code?] at hcode

/-- **What the symbol that is left stands for, the size stands for**, unless it divides by
zero. -/
theorem evaluate_of_bound [Arithmetic] [Unbounded] {env env' : Environment} {size : Size}
    {name : String} {value : Number} (hsize : size.Integral) (henv' : env'.Sound)
    (hgrows : env.Grows env') (hleft : size.substitute env.bindings = .ok (.symbol name))
    (hvalue : env'.get? name = some value) :
    size.evaluate env'.bindings = .ok value ∨
      ∃ fault, size.evaluate env'.bindings = .error fault ∧
        fault.report.code? = some "DIVISION_BY_ZERO" := by
  have hlater : ∀ t, size.substitute env'.bindings = .ok t → t = .literal value := by
    intro t ht
    have hstage := Size.substitute_later hsize henv'.integral hgrows.below hleft ht
    rw [Size.substitute_symbol, get?_bindings, hvalue] at hstage
    exact (Except.ok.inj hstage).symm
  rcases Size.evaluate_cases env'.bindings size with ⟨v, ht, hv⟩ | hzero | ⟨t, ht, hsome, _⟩
  · obtain rfl : v = value := Size.literal.inj (hlater _ ht)
    exact .inl hv
  · exact .inr hzero
  · obtain rfl := hlater t ht
    exact absurd (Size.symbols_eq_nil.mpr rfl) hsome

/-! ## One unification -/

variable {env env' : Environment} {size : Size} {value : Number} {relation : String}
  {source : Source}

/-- **A unification that succeeds** has solved the size, if no divisor has become zero. -/
theorem evaluate_of_unify (hsize : size.Integral) (henv : env.Sound)
    (hsub : Exact fun _ => size.substitute env.bindings)
    (heval : Exact fun _ => size.evaluate env'.bindings)
    (hunify : env.unify size value relation source = .ok env') :
    size.evaluate env'.bindings = .ok value ∨
      ∃ d ∈ size.divisors, d.evaluate env.bindings ≠ .ok 0 ∧
        d.evaluate env'.bindings = .ok 0 := by
  obtain ⟨pending, hpending, hending⟩ := bind_eq_ok.mp hunify
  cases pending with
  | literal v =>
      obtain ⟨hsame, rfl⟩ := ite_ok_eq_ok.mp hending
      obtain ⟨n, rfl⟩ := @Size.substitute_integral .unbounded _ _ _ _ hsize henv.integral
        (hsub.symm.trans hpending)
      rw [Number.same_int_iff.mp hsame]
      exact .inl (Size.evaluate_eq_ok.mpr hpending)
  | symbol name =>
      have hgrows := unify_grows hunify
      rcases @evaluate_of_bound .unbounded _ _ _ _ _ _ hsize (hgrows.sound henv) hgrows
        (hsub.symm.trans hpending) (get?_of_bind hending) with hvalue | ⟨fault, hfault, hcode⟩
      · exact .inl (heval.trans hvalue)
      · obtain ⟨d, hd, hzero⟩ := zero_divisor hsize (heval.trans hfault) hcode
        exact .inr ⟨d, hd, Size.divisor_ne_zero hpending hd, hzero⟩
  | binary op l r => cases hending

/-- A free symbol takes every size and no other value. -/
theorem bind_free_iff {symbol : String} (hfree : env.get? symbol = none) :
    env.bind symbol value source = .ok env' ↔
      IsSize value ∧ env' = ⟨env.entries ++ [⟨symbol, value, source⟩]⟩ := by
  have hnone : env.find? symbol = none := by simpa [get?] using hfree
  constructor
  · intro h
    obtain ⟨hsize, ⟨held, hheld, _⟩ | ⟨_, hnew⟩⟩ := bind_cases h
    · cases hnone.symm.trans hheld
    · exact ⟨hsize, hnew⟩
  · rintro ⟨hsize, rfl⟩
    exact bind_free source hsize (find?_eq_none.mp hnone)

/-- **A unification** in a sound environment solves what it is given. -/
theorem solves_of_sound (hsize : size.Integral) (henv : env.Sound) (value : Number)
    (relation : String) (source : Source) (hsub : Exact fun _ => size.substitute env.bindings)
    (heval : ∀ env', env.unify size value relation source = .ok env' →
      Exact fun _ => size.evaluate env'.bindings) :
    env.Solves size value source (env.unify size value relation source) where
  solved env' hunify := evaluate_of_unify hsize henv hsub (heval env' hunify) hunify
  known v hv env' := by
    have hpending := Size.evaluate_eq_ok.mp hv
    obtain ⟨n, rfl⟩ := @Size.substitute_integral .unbounded _ _ _ _ hsize henv.integral
      (hsub.symm.trans hpending)
    unfold unify
    rw [hpending]
    refine ite_ok_eq_ok.trans ?_
    rw [Number.same_int_iff, eq_comm, eq_comm (a := env)]
  unresolved t ht hopen hnamed := by
    refine ⟨?_, symbols_left ht hopen⟩
    unfold unify
    rw [ht]
    cases t with
    | literal v => cases hopen
    | symbol name => cases hnamed
    | binary op l r => rfl
  bare name hname env' := by
    have hself : name ∈ (Size.symbol name).symbols :=
      Size.mem_symbols.mpr (List.mem_singleton.mpr rfl)
    have hfree := (symbols_left hname rfl).2 name hself
    unfold unify
    rw [hname]
    exact bind_free_iff hfree.2
  divided fault hfault := by
    refine ⟨?_, Size.substitute_fault hfault⟩
    unfold unify
    rw [hfault]
    rfl

end Environment

namespace Registry

/-- The environments in use are sound. -/
theorem sound_of_env? (calls : List Call) {place : Nat} {env : Environment}
    (henv : (empty.run calls).env? place = some env) : env.Sound := by
  have hproper := (empty_sound.run calls).proper_of_env? henv
  intro symbol v hv
  obtain ⟨held, hheld, rfl⟩ := Option.map_eq_some_iff.mp hv
  exact hproper.sizes held (List.mem_of_find?_eq_some hheld)

/-- **Unification solves exactly what it claims**, in every environment that calls lead to, for
every size that can be made and for every value. -/
theorem unify_solves (calls : List Call) {place : Nat} {env : Environment}
    (henv : (empty.run calls).env? place = some env) {r : Recipe} {size : Size} (hr : r.Integral)
    (hmade : Exact fun _ => r.size) (hs : r.size = .ok size) (value : Number) (relation : String)
    (source : Source) (hsub : Exact fun _ => size.substitute env.bindings)
    (heval : ∀ env', env.unify size value relation source = .ok env' →
      Exact fun _ => size.evaluate env'.bindings) :
    env.Solves size value source (env.unify size value relation source) :=
  Environment.solves_of_sound (@Recipe.size_integral .unbounded _ r size hr (hmade.symm.trans hs))
    (sound_of_env? calls henv) value relation source hsub heval

/-- With five for `k` all that is left of `k - 5 + n` is `n`.  So unifying the size with seven
binds `n`, and then the size is seven.  With zero for `m` all that is left of `n + m / (n - 7)` is
`n` as well, but its divisor is zero once `n` is seven. -/
theorem unify_solves_collapsed :
    let env : Environment := ⟨[⟨"k", 5, .explicit⟩, ⟨"m", 0, .explicit⟩]⟩
    let env' : Environment := ⟨env.entries ++ [⟨"n", 7, .input⟩]⟩
    let shifted : Size :=
      .binary .add (.binary .add (.symbol "k") (.literal (.int (-5)))) (.symbol "n")
    let gap : Size := .binary .add (.symbol "n") (.literal (.int (-7)))
    let divided : Size := .binary .add (.symbol "n") (.binary .div (.symbol "m") gap)
    env.unify shifted 7 "axis 0" .input = .ok env' ∧ shifted.evaluate env'.bindings = .ok 7 ∧
      env.unify divided 7 "axis 0" .input = .ok env' ∧ gap.evaluate env'.bindings = .ok 0 := by
  intro env env' shifted gap divided
  have henv : (empty.run [.construct [("k", 5), ("m", 0)]]).env? 0 = some env := rfl
  let r : Recipe := .binary .add (.binary .sub (.symbol "k") (.number 5)) (.symbol "n")
  let q : Recipe :=
    .binary .add (.symbol "n") (.binary .div (.symbol "m") (.binary .sub (.symbol "n") (.number 7)))
  have hr : r.Integral := ⟨⟨trivial, trivial⟩, trivial⟩
  have hq : q.Integral := ⟨trivial, trivial, trivial, trivial⟩
  have hrs : r.size = .ok shifted := rfl
  have hqs : q.size = .ok divided := rfl
  have hshifted := unify_solves _ henv hr (.of_eq _ rfl rfl) hrs 7 "axis 0" .input
    (.of_eq _ rfl rfl) (by rintro _ ⟨⟩; exact .of_eq _ rfl rfl)
  have hdivided := unify_solves _ henv hq (.of_eq _ rfl rfl) hqs 7 "axis 0" .input
    (.of_eq _ rfl rfl) (by rintro _ ⟨⟩; exact .of_eq _ rfl rfl)
  have hseven : IsSize 7 := ⟨rfl, rfl⟩
  have hfirst := (hshifted.bare "n" rfl env').mpr ⟨hseven, rfl⟩
  have hsecond := (hdivided.bare "n" rfl env').mpr ⟨hseven, rfl⟩
  refine ⟨hfirst, ?_, hsecond, ?_⟩
  · rcases hshifted.solved env' hfirst with hvalue | ⟨d, hd, _⟩
    · exact hvalue
    · cases hd
  · rcases hdivided.solved env' hsecond with hvalue | ⟨d, hd, _, hzero⟩
    · cases hvalue
    · obtain rfl := List.mem_singleton.mp hd
      exact hzero

end Registry

end ShapeGraph

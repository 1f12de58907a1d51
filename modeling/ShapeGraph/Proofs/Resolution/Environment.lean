import ShapeGraph.Environment
import ShapeGraph.Proofs.Outcome
import ShapeGraph.Proofs.Size.Substitution

/-!
# Environments only grow

Whatever is bound stays bound to its value, and everything bound is a safe
integer that is not negative.

* `Grows` — all bindings of one environment are in another, whose values are as
  good;
* `bind_cases` — what binding one symbol does;
* `bind_grows`, `unify_grows`, `bindAll_grows` — every way of binding makes an
  environment grow;
* `get?_bindings` — the bindings of an environment are its own;
* `ofBindings_admissible` — safe sizes under names that stand once are taken as
  they are.
-/

namespace ShapeGraph.Environment

open ShapeGraph.Numeric (Arithmetic Number)

variable {env env' : Environment}

/-- Everything bound is a safe integer that is not negative. -/
def Sound (env : Environment) : Prop :=
  ∀ symbol v, env.get? symbol = some v → v.isSafe = true ∧ v.lt 0 = false

/-- All bindings are kept, and new ones are sound. -/
structure Grows (env env' : Environment) : Prop where
  keeps : ∀ symbol v, env.get? symbol = some v → env'.get? symbol = some v
  sound : env.Sound → env'.Sound

theorem Grows.refl (env : Environment) : env.Grows env :=
  ⟨fun _ _ h => h, fun h => h⟩

/-- Growing is transitive. -/
theorem Grows.trans {env'' : Environment} (h : env.Grows env') (h' : env'.Grows env'') :
    env.Grows env'' :=
  ⟨fun symbol v hv => h'.keeps symbol v (h.keeps symbol v hv), fun hs => h'.sound (h.sound hs)⟩

/-- There is nothing in an environment without bindings that could be unsound. -/
theorem empty_sound : empty.Sound := fun _ _ h => nomatch h

/-- The bindings of an environment have the values of its entries. -/
theorem get?_bindings (env : Environment) (symbol : String) :
    env.bindings.get? symbol = env.get? symbol := by
  unfold bindings get? find?
  induction env.entries with
  | nil => rfl
  | cons entry rest ih =>
      simp only [List.map_cons, Entries.get?, List.find?_cons]
      by_cases h : entry.symbol = symbol
      · simp [h]
      · simpa [h] using ih

/-- The bindings of a sound environment are integers. -/
theorem Sound.integral (h : env.Sound) : env.bindings.Integral := by
  intro symbol v hv
  rw [get?_bindings] at hv
  exact Number.eq_int_of_isSafe (h symbol v hv).1

/-- A valuation that agrees with an environment agrees with those that it has
grown from. -/
theorem Grows.agrees (h : env.Grows env') {ρ : Valuation} (hρ : env'.bindings.Agrees ρ) :
    env.bindings.Agrees ρ := by
  intro symbol v hv
  rw [get?_bindings] at hv
  exact hρ symbol v (by rw [get?_bindings]; exact h.keeps symbol v hv)

/-- A symbol that is appended is bound only if it was free. -/
theorem get?_append (env : Environment) (entry : Binding) (symbol : String) :
    (Environment.mk (env.entries ++ [entry])).get? symbol =
      (env.get? symbol).or (if entry.symbol = symbol then some entry.value else none) := by
  unfold get? find?
  simp only [List.find?_append, List.find?_singleton]
  cases env.entries.find? fun held => decide (held.symbol = symbol) with
  | none => by_cases h : entry.symbol = symbol <;> simp [h]
  | some held => simp

/-- **What binding does.**  Only sizes are bound.  A symbol that has the value already keeps its
binding, and a free one has a new binding at the end. -/
theorem bind_cases {symbol : String} {value : Number} {source : Source}
    (h : env.bind symbol value source = .ok env') :
    (value.isSafe = true ∧ value.lt 0 = false) ∧
      ((∃ held, env.find? symbol = some held ∧ held.value = value ∧ env' = env) ∨
        (env.find? symbol = none ∧ env' = ⟨env.entries ++ [⟨symbol, value, source⟩]⟩)) := by
  unfold bind at h
  split at h
  · next hvalue =>
    refine ⟨by simpa using hvalue, ?_⟩
    split at h
    · next held hheld =>
      obtain ⟨hsame, rfl⟩ := ite_ok_eq_ok.mp h
      exact .inl ⟨held, hheld, hsame, rfl⟩
    · next hfree => exact .inr ⟨hfree, (Except.ok.inj h).symm⟩
  · cases h

/-- A binding that is accepted makes the environment grow. -/
theorem bind_grows {symbol : String} {value : Number} {source : Source}
    (h : env.bind symbol value source = .ok env') : env.Grows env' := by
  obtain ⟨hsize, ⟨_, _, _, rfl⟩ | ⟨_, rfl⟩⟩ := bind_cases h
  · exact .refl env'
  · refine ⟨fun other v hv => ?_, fun hs other v hv => ?_⟩
    · rw [get?_append, hv, Option.some_or]
    · rw [get?_append] at hv
      rcases Option.or_eq_some_iff.mp hv with hv | ⟨_, hv⟩
      · exact hs other v hv
      · split at hv
        · obtain rfl := Option.some.inj hv
          exact hsize
        · cases hv

theorem bindAll_grows {initial : Bindings} (h : env.bindAll initial = .ok env') :
    env.Grows env' := by
  induction initial generalizing env with
  | nil =>
      obtain rfl := Except.ok.inj h
      exact .refl env
  | cons entry rest ih =>
      obtain ⟨symbol, value⟩ := entry
      obtain ⟨middle, hmiddle, hrest⟩ := bind_eq_ok.mp h
      exact (bind_grows hmiddle).trans (ih hrest)

/-- An environment that is made of accepted bindings is sound. -/
theorem ofBindings_sound {initial : Bindings} (h : ofBindings initial = .ok env) : env.Sound :=
  (bindAll_grows h).sound empty_sound

/-- A unification that succeeds makes the environment grow. -/
theorem unify_grows [Arithmetic] {size : Size} {value : Number} {relation : String}
    {source : Source} (h : env.unify size value relation source = .ok env') :
    env.Grows env' := by
  obtain ⟨pending, _, h⟩ := bind_eq_ok.mp h
  cases pending with
  | literal known =>
      simp only [ite_ok_eq_ok] at h
      obtain ⟨_, rfl⟩ := h
      exact .refl env
  | symbol name => exact bind_grows h
  | binary op l r => cases h

/-! ## Bindings that callers give -/

/-- Safe integers that are not negative, under names that stand once. -/
structure Admissible (bindings : Bindings) : Prop where
  names : (bindings.map Prod.fst).Nodup
  sizes : ∀ entry ∈ bindings, entry.2.isSafe = true ∧ entry.2.lt 0 = false

/-- The binding that an entry becomes. -/
def given (entry : String × Number) : Binding :=
  ⟨entry.1, entry.2, .explicit⟩

/-- A free symbol is bound to any size. -/
theorem bind_free {symbol : String} {value : Number} (source : Source)
    (hsize : value.isSafe = true ∧ value.lt 0 = false)
    (hfree : symbol ∉ env.entries.map Binding.symbol) :
    env.bind symbol value source = .ok ⟨env.entries ++ [⟨symbol, value, source⟩]⟩ := by
  have hfind : env.find? symbol = none := by
    rw [find?, List.find?_eq_none]
    intro entry hentry hsymbol
    exact hfree (List.mem_map.mpr ⟨entry, hentry, of_decide_eq_true hsymbol⟩)
  unfold bind
  rw [hfind, if_pos (by simp [hsize])]

/-- Sizes under names that are free are all accepted, in their order. -/
theorem bindAll_free {initial : Bindings} (h : Admissible initial)
    (hfree : ∀ entry ∈ initial, entry.1 ∉ env.entries.map Binding.symbol) :
    env.bindAll initial = .ok ⟨env.entries ++ initial.map given⟩ := by
  induction initial generalizing env with
  | nil => simp [bindAll]
  | cons entry rest ih =>
      obtain ⟨hfresh, hnames⟩ := List.nodup_cons.mp h.names
      obtain ⟨hsize, hsizes⟩ := List.forall_mem_cons.mp h.sizes
      obtain ⟨hthis, hothers⟩ := List.forall_mem_cons.mp hfree
      have hlater : ∀ other ∈ rest,
          other.1 ∉ (env.entries ++ [given entry]).map Binding.symbol := by
        intro other hother
        have hne : other.1 ≠ entry.1 := fun heq =>
          hfresh (List.mem_map.mpr ⟨other, hother, heq⟩)
        simpa [given, hne] using hothers other hother
      rw [bindAll, bind_eq_ok]
      refine ⟨_, bind_free .explicit hsize hthis, (ih ⟨hnames, hsizes⟩ hlater).trans ?_⟩
      simp

/-- **Bindings that callers give** become an environment with just these
bindings. -/
theorem ofBindings_admissible {initial : Bindings} (h : Admissible initial) :
    ∃ env, ofBindings initial = .ok env ∧ env.bindings = initial := by
  refine ⟨⟨initial.map given⟩, (bindAll_free h (by simp [empty])).trans (by simp [empty]), ?_⟩
  simp [bindings, given, Function.comp_def]

end ShapeGraph.Environment

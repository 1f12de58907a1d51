import ShapeGraph.Proofs.Resolution.Environment
import ShapeGraph.Proofs.Size.Stage
import ShapeGraph.Proofs.View.Shown

/-!
# Environments between two others

A run of a resolution ends with its final bindings.  Another run that starts with
some of these is ahead of it: at every step it has bound all that the first run has
bound, and nothing that is not bound to the same value in the end.  Where the first
run binds a symbol, the other one binds it as well or finds it bound to that value.

* `Between` — the environments that are ahead of one and behind the final one;
* `bind_between`, `unify_between` — a binding that goes through in the one
  environment goes through in the other;
* `bind_of_final`, `bindAll_of_final` — what is bound in the end can be bound before;
* `resolve_later` — a view that has been resolved is resolved to the same later.
-/

namespace ShapeGraph

open ShapeGraph.Numeric (Arithmetic Number Unbounded)

namespace Environment

variable {final lower upper env env' : Environment} {symbol : String} {value : Number}
  {source : Source}

/-- An environment that has all that one has, and nothing that the final one has
not. -/
structure Between (lower upper final : Environment) : Prop where
  below : lower.bindings.Below upper.bindings
  above : upper.bindings.Below final.bindings
  sound : final.Sound

/-- The final environment is itself ahead of whatever it has grown from. -/
theorem Between.at_end (hbelow : env.bindings.Below final.bindings) (hsound : final.Sound) :
    Between env final final :=
  ⟨hbelow, Bindings.Below.refl _, hsound⟩

/-- A later environment has all bindings of the earlier one. -/
theorem Grows.below (h : env.Grows env') : env.bindings.Below env'.bindings := by
  intro name v hv
  rw [get?_bindings] at hv ⊢
  exact h.keeps name v hv

/-! ## Binding one symbol -/

/-- A symbol that has been bound has its value, and all others are as they were. -/
theorem bind_ok (h : env.bind symbol value source = .ok env') :
    env'.bindings.get? symbol = some value ∧
      ∀ name ≠ symbol, env'.bindings.get? name = env.bindings.get? name := by
  unfold bind at h
  split at h
  · split at h
    · next held hheld =>
      obtain ⟨hvalue, rfl⟩ := ite_ok_eq_ok.mp h
      refine ⟨?_, fun _ _ => rfl⟩
      rw [get?_bindings, get?, hheld, ← hvalue]
      rfl
    · next hfree =>
      obtain rfl := Except.ok.inj h
      refine ⟨?_, fun name hname => ?_⟩
      · rw [get?_bindings, get?_append, get?, hfree]
        simp
      · rw [get?_bindings, get?_append, get?_bindings, if_neg hname.symm, Option.or_none]
  · cases h

/-- Only integers are bound. -/
theorem bind_integral (h : env.bind symbol value source = .ok env') : ∃ n, value = .int n := by
  unfold bind at h
  split at h
  · next hvalue => exact Number.eq_int_of_isSafe (Bool.and_eq_true_iff.mp hvalue).1
  · cases h

/-- What is bound in the end can be bound at any time before. -/
theorem bind_of_final (hsound : final.Sound) (habove : env.bindings.Below final.bindings)
    (hvalue : final.bindings.get? symbol = some value) :
    ∃ env', env.bind symbol value source = .ok env' ∧
      env'.bindings.Below final.bindings := by
  have hsize : (value.isSafe && !value.lt 0) = true := by
    rw [get?_bindings] at hvalue
    simp [hsound symbol value hvalue]
  have hbinds : ∃ env', env.bind symbol value source = .ok env' := by
    unfold bind
    rw [if_pos hsize]
    cases hheld : env.find? symbol with
    | none => exact ⟨_, rfl⟩
    | some held =>
        have hget : env.bindings.get? symbol = some held.value := by
          rw [get?_bindings, get?, hheld]
          rfl
        have hsame : held.value = value :=
          Option.some.inj ((habove symbol _ hget).symm.trans hvalue)
        exact ⟨env, if_pos hsame⟩
  obtain ⟨env', hbind⟩ := hbinds
  obtain ⟨hthis, hothers⟩ := bind_ok hbind
  refine ⟨env', hbind, fun name v hv => ?_⟩
  by_cases hname : name = symbol
  · subst hname
    rw [hthis] at hv
    exact hvalue.trans hv
  · rw [hothers name hname] at hv
    exact habove name v hv

/-- What one run binds, the other one may have bound before. -/
theorem Between.of_held (hbetween : Between lower upper final)
    (h : lower.bind symbol value source = .ok env)
    (hheld : upper.bindings.get? symbol = some value) : Between env upper final where
  below name v hv := by
    obtain ⟨hthis, hothers⟩ := bind_ok h
    by_cases hname : name = symbol
    · subst hname
      exact hheld.trans (hthis.symm.trans hv)
    · rw [hothers name hname] at hv
      exact hbetween.below name v hv
  above := hbetween.above
  sound := hbetween.sound

/-- What is bound in the end, the run that is ahead can bind on its own. -/
theorem Between.bind_ahead (hbetween : Between lower upper final)
    (hvalue : final.bindings.get? symbol = some value) :
    ∃ env', upper.bind symbol value source = .ok env' ∧ Between lower env' final := by
  obtain ⟨env', hbind, habove⟩ := bind_of_final hbetween.sound hbetween.above hvalue
  exact ⟨env', hbind, hbetween.below.trans (bind_grows hbind).below, habove, hbetween.sound⟩

/-- What one run binds, the other one can bind. -/
theorem bind_between (hbetween : Between lower upper final)
    (h : lower.bind symbol value source = .ok env)
    (hfinal : env.bindings.Below final.bindings) :
    ∃ env', upper.bind symbol value source = .ok env' ∧ Between env env' final := by
  obtain ⟨env', hbind, hahead⟩ := hbetween.bind_ahead (hfinal symbol value (bind_ok h).1)
  exact ⟨env', hbind, hahead.of_held h (bind_ok hbind).1⟩

/-! ## Bindings that callers give -/

/-- Bindings that are final are accepted at any time. -/
theorem bindAll_of_final (hsound : final.Sound) (habove : env.bindings.Below final.bindings)
    {given : Bindings} (hgiven : ∀ entry ∈ given, final.bindings.get? entry.1 = some entry.2) :
    ∃ env', env.bindAll given = .ok env' ∧ env'.bindings.Below final.bindings := by
  induction given generalizing env with
  | nil => exact ⟨env, rfl, habove⟩
  | cons entry rest ih =>
      obtain ⟨symbol, value⟩ := entry
      obtain ⟨hthis, hrest⟩ := List.forall_mem_cons.mp hgiven
      obtain ⟨middle, hmiddle, hbelow⟩ := bind_of_final hsound habove hthis
      obtain ⟨env', henv', habove'⟩ := ih hbelow hrest
      exact ⟨env', bind_eq_ok.mpr ⟨middle, hmiddle, henv'⟩, habove'⟩

/-- What is given is bound. -/
theorem get?_of_bindAll {given : Bindings} (h : env.bindAll given = .ok env') :
    ∀ entry ∈ given, env'.bindings.get? entry.1 = some entry.2 := by
  induction given generalizing env with
  | nil => simp
  | cons entry rest ih =>
      obtain ⟨symbol, value⟩ := entry
      obtain ⟨middle, hmiddle, hrest⟩ := bind_eq_ok.mp h
      refine List.forall_mem_cons.mpr ⟨?_, ih hrest⟩
      exact (bindAll_grows hrest).below symbol value (bind_ok hmiddle).1

/-- What is bound was bound before or is given. -/
theorem mem_of_bindAll {given : Bindings} (h : env.bindAll given = .ok env') {name : String}
    {v : Number} (hv : env'.bindings.get? name = some v) :
    env.bindings.get? name = some v ∨ (name, v) ∈ given := by
  induction given generalizing env with
  | nil =>
      obtain rfl := Except.ok.inj h
      exact .inl hv
  | cons entry rest ih =>
      obtain ⟨symbol, value⟩ := entry
      obtain ⟨middle, hmiddle, hrest⟩ := bind_eq_ok.mp h
      obtain ⟨hthis, hothers⟩ := bind_ok hmiddle
      rcases ih hrest with hheld | hmem
      · by_cases hname : name = symbol
        · subst hname
          obtain rfl := Option.some.inj (hthis.symm.trans hheld)
          exact .inr List.mem_cons_self
        · exact .inl (hothers name hname ▸ hheld)
      · exact .inr (List.mem_cons_of_mem _ hmem)

/-- What is given to one run is between what is given to another one and what that
ends with, if it is some of the latter and all of the former. -/
theorem ofBindings_between (hsound : final.Sound) {given seeded : Bindings}
    (h : ofBindings given = .ok env) (hgiven : ∀ entry ∈ given, entry ∈ seeded)
    (hseeded : ∀ entry ∈ seeded, final.bindings.get? entry.1 = some entry.2) :
    ∃ env', ofBindings seeded = .ok env' ∧ Between env env' final := by
  have hnothing : empty.bindings.Below final.bindings := fun _ _ hv => nomatch hv
  obtain ⟨env', henv', habove⟩ := bindAll_of_final hsound hnothing hseeded
  refine ⟨env', henv', ?_, habove, hsound⟩
  intro name v hv
  rcases mem_of_bindAll h hv with hheld | hmem
  · cases hheld
  · exact get?_of_bindAll henv' _ (hgiven _ hmem)

section

variable [Arithmetic]

/-- The symbol that one run binds is bound in the other one, or is left there and can be
bound as well. -/
theorem Between.bind_later (hbetween : Between lower upper final) {size : Size}
    (h : lower.bind symbol value source = .ok env)
    (hfinal : env.bindings.Below final.bindings)
    (hstage : (Size.symbol symbol).substitute upper.bindings = .ok size) :
    (size = .literal value ∧ Between env upper final) ∨
      (size = .symbol symbol ∧
        ∃ env', upper.bind symbol value source = .ok env' ∧ Between env env' final) := by
  rw [Size.substitute_symbol] at hstage
  cases hheld : upper.bindings.get? symbol with
  | none =>
      rw [hheld] at hstage
      exact .inr ⟨(Except.ok.inj hstage).symm, bind_between hbetween h hfinal⟩
  | some known =>
      rw [hheld] at hstage
      have hvalue := hfinal symbol value (bind_ok h).1
      obtain rfl : known = value :=
        Option.some.inj ((hbetween.above symbol known hheld).symm.trans hvalue)
      exact .inl ⟨(Except.ok.inj hstage).symm, hbetween.of_held h hheld⟩

variable [Unbounded]

/-- A regular size at two environments, one of which is ahead of the other. -/
theorem Between.at_stage (hbetween : Between lower upper final) {s t : Size}
    (hs : s.Regular final.bindings) (h : s.substitute lower.bindings = .ok t) :
    ∃ u, s.substitute upper.bindings = .ok u ∧ t.substitute upper.bindings = .ok u :=
  hs.at_stage hbetween.sound.integral hbetween.below hbetween.above h

/-- A size that comes to a number comes to the same number ahead of its turn. -/
theorem Between.evaluate_later (hbetween : Between lower upper final) {s : Size} {v : Number}
    (hs : s.Regular final.bindings) (h : s.evaluate lower.bindings = .ok v) :
    s.evaluate upper.bindings = .ok v :=
  hs.evaluate_later hbetween.sound.integral hbetween.below hbetween.above h

/-- **What one run unifies, the other one can unify.**  It finds the same literal, or
the symbol that the first run binds, be it bound or not. -/
theorem unify_between (hbetween : Between lower upper final) {size : Size}
    (hs : size.Regular final.bindings) {relation : String}
    (h : lower.unify size value relation source = .ok env)
    (hfinal : env.bindings.Below final.bindings) :
    ∃ env', upper.unify size value relation source = .ok env' ∧ Between env env' final := by
  obtain ⟨pending, hpending, h⟩ := bind_eq_ok.mp h
  obtain ⟨later, hlater, hstage⟩ := hbetween.at_stage hs hpending
  simp only [unify, hlater]
  cases pending with
  | literal known =>
      obtain rfl := Size.substitute_literal.mp hstage
      obtain ⟨hsame, rfl⟩ := ite_ok_eq_ok.mp h
      exact ⟨upper, ite_ok_eq_ok.mpr ⟨hsame, rfl⟩, hbetween⟩
  | symbol name =>
      rcases hbetween.bind_later h hfinal hstage with ⟨rfl, hheld⟩ | ⟨rfl, hbinds⟩
      · obtain ⟨n, rfl⟩ := hbetween.sound.integral name value (hfinal name value (bind_ok h).1)
        exact ⟨upper, ite_ok_eq_ok.mpr ⟨by simp, rfl⟩, hheld⟩
      · exact hbinds
  | binary op l r => cases h

end

end Environment

/-! ## Views -/

/-- The bounds of a range are regular sizes. -/
structure AxisRange.Regular [Arithmetic] (bindings : Bindings) (range : AxisRange) : Prop where
  start : range.start.Regular bindings
  stop : range.stop.Regular bindings

/-- The bounds of all ranges of a view are regular sizes. -/
def View.Regular [Arithmetic] (bindings : Bindings) (v : View) : Prop :=
  ∀ range ∈ v.axes, range.Regular bindings

namespace View

variable [Arithmetic]

/-- The ranges of a regular view are regular. -/
theorem Regular.of_ranges {bindings : Bindings} {v : View} (hv : v.Regular bindings)
    {ranges : List AxisRange} (h : v.ranges = .ok ranges) :
    ∀ range ∈ ranges, range.Regular bindings :=
  fun range hr => hv range (mem_axes_of_ranges h range hr)

variable [Unbounded]

/-- The lengths of a regular view are regular. -/
theorem Regular.of_lengths {bindings : Bindings} {v : View} (hv : v.Regular bindings)
    {lengths : List Size} (h : v.lengths = .ok lengths) : ∀ s ∈ lengths, s.Regular bindings := by
  intro s hs
  obtain ⟨range, hr, rfl⟩ := mem_lengths h hs
  exact (hv range hr).stop.sub (hv range hr).start

variable {final lower upper : Environment}

/-- Ranges that can be resolved are resolved to the same ahead of their turn. -/
theorem resolveFrom_later (hbetween : Environment.Between lower upper final) {axis : Nat}
    {ranges : List AxisRange} (hranges : ∀ range ∈ ranges, range.Regular final.bindings)
    {concrete : List ConcreteRange} (h : resolveFrom lower.bindings axis ranges = .ok concrete) :
    resolveFrom upper.bindings axis ranges = .ok concrete := by
  induction ranges generalizing axis concrete with
  | nil => exact h
  | cons range rest ih =>
      obtain ⟨hrange, hrest⟩ := List.forall_mem_cons.mp hranges
      simp only [resolveFrom, bind_eq_ok, ite_error_eq_ok, pure_eq_ok] at h ⊢
      obtain ⟨start, hstart, stop, hstop, hproper, others, hothers, rfl⟩ := h
      exact ⟨start, hbetween.evaluate_later hrange.start hstart,
        stop, hbetween.evaluate_later hrange.stop hstop, hproper, others, ih hrest hothers, rfl⟩

/-- **A view that has been resolved is resolved to the same later.** -/
theorem resolve_later (hbetween : Environment.Between lower upper final) {v : View}
    (hv : v.Regular final.bindings) {shown : ResolvedView}
    (h : v.resolve lower.bindings = .ok shown) : v.resolve upper.bindings = .ok shown := by
  simp only [resolve, bind_eq_ok] at h ⊢
  obtain ⟨ranges, hranges, concrete, hconcrete, h⟩ := h
  have hsame := resolveFrom_later hbetween (hv.of_ranges hranges) hconcrete
  exact ⟨ranges, hranges, concrete, hsame, h⟩

end View

end ShapeGraph

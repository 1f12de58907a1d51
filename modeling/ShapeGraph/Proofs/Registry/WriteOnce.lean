import ShapeGraph.Proofs.Registry.Step

/-!
# Environments are write-once

Every environment in use has a table of its own, so a call changes one environment at most, and
all that it can do there is add a binding at the end.  A construction that fails has bound some
symbols by then, but in a table that no environment has.  What holds after one call is carried
through any number of them by induction.

* `Sound` — no two environments share a table, and all tables are proper;
* `Effect` — the three things that a call can do, and `Sound.effect`, that it does one of them;
* `Effect.sound`, `Effect.grows`, `Effect.elsewhere` — what each of them keeps;
* `write_once` — what holds of all environments after any calls.
-/

namespace ShapeGraph.Registry

open ShapeGraph.Numeric (Arithmetic Number)

/-- No two environments share a table, their tables exist, and all tables are proper. -/
structure Sound (r : Registry) : Prop where
  apart : r.issued.Nodup
  behind : ∀ table ∈ r.issued, table < r.tables.length
  proper : ∀ env ∈ r.tables, env.Proper

/-- A registry without environments is sound. -/
theorem empty_sound : empty.Sound :=
  ⟨List.nodup_nil, (fun _ h => nomatch h), fun _ h => nomatch h⟩

/-- The environment that a call may bind in, with the value and the source of the binding. -/
def Call.binds? : Call → Option (Nat × Number × Source)
  | construct _ => none
  | bind place _ value source => some (place, value, source)
  | unify place _ value _ source => some (place, value, source)
  | clone _ => none

/-- A call that binds does so in the environment at this place. -/
def Call.BindsIn (call : Call) (place : Nat) : Prop :=
  ∃ value source, call.binds? = some (place, value, source)

/-- What a call can do. -/
inductive Effect (r : Registry) (call : Call) : Except Fault Unit → Registry → Prop
  /-- It fails, and tables may be left that no environment has. -/
  | failed (fault : Fault) {wasted : List Environment} (proper : ∀ env ∈ wasted, env.Proper) :
      Effect r call (.error fault) { r with tables := r.tables ++ wasted }
  /-- An environment is new. -/
  | made {env : Environment} (proper : env.Proper) (binds : call.binds? = none) :
      Effect r call (.ok ()) (r.withNew env)
  /-- A table of an environment in use has one binding more, or none. -/
  | bound {place table : Nat} {value : Number} {source : Source} {env env' : Environment}
      (binds : call.binds? = some (place, value, source)) (issued : r.issued[place]? = some table)
      (held : r.tables[table]? = some env) (gains : env.Gains value source env') :
      Effect r call (.ok ()) (r.put table env')

variable {r r' : Registry} {place table : Nat} {env env' : Environment}

/-! ## Looking an environment up -/

/-- The environments of a sound registry are proper. -/
theorem Sound.proper_of_env? (hr : r.Sound) (h : r.env? place = some env) : env.Proper := by
  obtain ⟨table, _, hheld⟩ := env?_eq_some.mp h
  exact hr.proper env (List.mem_of_getElem? hheld)

/-- Tables that are added change no environment. -/
theorem env?_wasted (hr : r.Sound) (wasted : List Environment) (place : Nat) :
    env? { r with tables := r.tables ++ wasted } place = r.env? place := by
  unfold env?
  cases htable : r.issued[place]? with
  | none => rfl
  | some table =>
      have hlt := hr.behind table (List.mem_of_getElem? htable)
      simp [List.getElem?_append_left hlt]

/-- A new environment leaves the others alone. -/
theorem env?_withNew (h : r.env? place = some env) (new : Environment) :
    (r.withNew new).env? place = some env := by
  obtain ⟨table, hissued, hheld⟩ := env?_eq_some.mp h
  have hplace := (List.getElem?_eq_some_iff.mp hissued).1
  have htable := (List.getElem?_eq_some_iff.mp hheld).1
  refine env?_eq_some.mpr ⟨table, ?_, ?_⟩
  · exact (List.getElem?_append_left hplace).trans hissued
  · exact (List.getElem?_append_left htable).trans hheld

theorem env?_withNew_new (r : Registry) (env : Environment) :
    (r.withNew env).env? r.issued.length = some env :=
  env?_eq_some.mpr ⟨r.tables.length, List.getElem?_concat_length, List.getElem?_concat_length⟩

/-- What is put in the table of an environment is its contents. -/
theorem env?_put_self (hissued : r.issued[place]? = some table)
    (hheld : r.tables[table]? = some env) (env' : Environment) :
    (r.put table env').env? place = some env' :=
  env?_eq_some.mpr ⟨table, hissued, tables_put hheld env'⟩

/-- What is put in the table of one environment changes no other one. -/
theorem env?_put_other (hr : r.Sound) (hissued : r.issued[place]? = some table) {other : Nat}
    (hother : other ≠ place) (env' : Environment) :
    (r.put table env').env? other = r.env? other := by
  unfold env?
  show r.issued[other]?.bind ((r.tables.set table env')[·]?) = _
  cases htable : r.issued[other]? with
  | none => rfl
  | some table' =>
      have hne : table ≠ table' := by
        rintro rfl
        have hlt := (List.getElem?_eq_some_iff.mp htable).1
        exact hother ((List.getElem?_inj hlt hr.apart).mp (htable.trans hissued.symm))
      simp [List.getElem?_set_ne hne]

/-! ## One call -/

section

variable [Arithmetic]

/-- The effect of a call is that of its step. -/
theorem Effect.of_perform {call : Call} {ending : Except Fault Unit}
    (h : call.step.perform r = (ending, r')) (heffect : r.Effect call ending r') :
    r.Effect call (r.outcome call) (r.after call) := by
  rw [outcome, after, h]
  exact heffect

omit [Arithmetic] in
/-- A call that fails may leave the registry as it was. -/
theorem Effect.refused (r : Registry) (call : Call) (fault : Fault) :
    r.Effect call (.error fault) r := by
  have h : r.Effect call (.error fault) { r with tables := r.tables ++ [] } :=
    .failed fault fun _ hwasted => nomatch hwasted
  simpa using h

/-- A change in place has the effect of what it does to its environment. -/
theorem effect_change {call : Call} {value : Number} {source : Source}
    {f : Environment → Except Fault Environment}
    (hstep : call.step = change place f) (hbinds : call.binds? = some (place, value, source))
    (hgains : ∀ env env', f env = .ok env' → env.Gains value source env') :
    r.Effect call (r.outcome call) (r.after call) := by
  rcases change_cases r place f with ⟨fault, hfailed⟩ | ⟨table, env, env', hissued, hheld, hf, hdone⟩
  · exact .of_perform (hstep ▸ hfailed) (.refused r call fault)
  · exact .of_perform (hstep ▸ hdone) (.bound hbinds hissued hheld (hgains env env' hf))

/-- **Every call** fails, makes an environment, or binds in one. -/
theorem Sound.effect (hr : r.Sound) (call : Call) :
    r.Effect call (r.outcome call) (r.after call) := by
  cases call with
  | construct initial =>
      rcases construct_cases r initial with
        ⟨fault, env, hproper, _, hfailed⟩ | ⟨env, hproper, _, hmade⟩
      · exact .of_perform hfailed (.failed fault (by simpa using hproper))
      · exact .of_perform hmade (.made hproper rfl)
  | bind place symbol value source =>
      exact effect_change rfl rfl fun _ _ => Environment.bind_gains
  | unify place size value relation source =>
      exact effect_change rfl rfl fun _ _ => Environment.unify_gains
  | clone place =>
      cases henv : r.env? place with
      | none =>
          obtain ⟨fault, hfailed⟩ := perform_clone_error henv
          exact .of_perform hfailed (.refused r _ fault)
      | some env =>
          have hproper := hr.proper_of_env? henv
          exact .of_perform (perform_clone henv hproper) (.made hproper rfl)

end

/-- No effect of a call makes a sound registry unsound. -/
theorem Effect.sound {call : Call} {ending : Except Fault Unit} (h : r.Effect call ending r')
    (hr : r.Sound) : r'.Sound := by
  cases h with
  | failed fault proper =>
      refine ⟨hr.apart, fun table htable => ?_, fun env henv => ?_⟩
      · have hlt := hr.behind table htable
        simp only [List.length_append]
        omega
      · rcases List.mem_append.mp henv with hold | hwasted
        · exact hr.proper env hold
        · exact proper env hwasted
  | @made env proper _ =>
      refine ⟨?_, fun table htable => ?_, fun held hheld => ?_⟩
      · have hfresh : r.tables.length ∉ r.issued :=
          fun hmem => absurd (hr.behind _ hmem) (Nat.lt_irrefl _)
        rw [withNew, (List.perm_append_singleton _ _).nodup_iff]
        exact List.nodup_cons.mpr ⟨hfresh, hr.apart⟩
      · have hlength : (r.withNew env).tables.length = r.tables.length + 1 := by simp [withNew]
        rcases List.mem_append.mp htable with hold | hnew
        · have hlt := hr.behind table hold
          omega
        · obtain rfl := List.mem_singleton.mp hnew
          omega
      · rcases List.mem_append.mp hheld with hold | hnew
        · exact hr.proper held hold
        · obtain rfl := List.mem_singleton.mp hnew
          exact proper
  | @bound _ table _ _ env env' _ _ held gains =>
      refine ⟨hr.apart, fun other hother => ?_, fun other hother => ?_⟩
      · have hlt := hr.behind other hother
        simpa [put] using hlt
      · rcases List.mem_or_eq_of_mem_set hother with hold | rfl
        · exact hr.proper other hold
        · exact gains.proper (hr.proper env (List.mem_of_getElem? held))

/-- A call that fails changes no environment. -/
theorem Effect.unchanged {call : Call} {fault : Fault} (h : r.Effect call (.error fault) r')
    (hr : r.Sound) (place : Nat) : r'.env? place = r.env? place := by
  cases h with
  | failed _ _ => exact env?_wasted hr _ place

/-- A call that binds and succeeds adds one binding at most. -/
theorem Effect.gains {call : Call} {value : Number} {source : Source}
    (h : r.Effect call (.ok ()) r') (hbinds : call.binds? = some (place, value, source)) :
    ∃ env env', r.env? place = some env ∧ r'.env? place = some env' ∧
      env.Gains value source env' := by
  cases h with
  | made _ binds => cases hbinds.symm.trans binds
  | @bound _ table _ _ env env' binds issued hheld gains =>
      cases hbinds.symm.trans binds
      exact ⟨env, env', env?_eq_some.mpr ⟨table, issued, hheld⟩, env?_put_self issued hheld env',
        gains⟩

/-- An environment is as it was after a call, or the call has bound in it. -/
theorem Effect.env?_cases {call : Call} {ending : Except Fault Unit} (h : r.Effect call ending r')
    (hr : r.Sound) (henv : r.env? place = some env) :
    r'.env? place = some env ∨ ∃ value source env', call.binds? = some (place, value, source) ∧
      r'.env? place = some env' ∧ env.Gains value source env' := by
  cases h with
  | failed fault proper => exact .inl ((env?_wasted hr _ place).trans henv)
  | made proper _ => exact .inl (env?_withNew henv _)
  | @bound target table value source held held' binds issued hheld gains =>
      by_cases hplace : place = target
      · subst hplace
        obtain rfl : held = env :=
          Option.some.inj ((env?_eq_some.mpr ⟨table, issued, hheld⟩).symm.trans henv)
        exact .inr ⟨value, source, held', binds, env?_put_self issued hheld held', gains⟩
      · exact .inl ((env?_put_other hr issued hplace held').trans henv)

/-- An environment keeps its bindings through a call, in their places. -/
theorem Effect.grows {call : Call} {ending : Except Fault Unit} (h : r.Effect call ending r')
    (hr : r.Sound) (henv : r.env? place = some env) :
    ∃ env', r'.env? place = some env' ∧ env.entries <+: env'.entries := by
  rcases h.env?_cases hr henv with hsame | ⟨value, source, env', _, henv', hgains⟩
  · exact ⟨env, hsame, List.prefix_refl _⟩
  · exact ⟨env', henv', hgains.keeps⟩

/-- A call changes no environment but the one that it binds in. -/
theorem Effect.elsewhere {call : Call} {ending : Except Fault Unit} (h : r.Effect call ending r')
    (hr : r.Sound) (henv : r.env? place = some env) (hcall : ¬ call.BindsIn place) :
    r'.env? place = some env := by
  rcases h.env?_cases hr henv with hsame | ⟨value, source, _, hbinds, _⟩
  · exact hsame
  · exact absurd ⟨value, source, hbinds⟩ hcall

/-! ## Any number of calls -/

section

variable [Arithmetic]

/-- A registry stays sound whatever is called. -/
theorem Sound.run (hr : r.Sound) (calls : List Call) : (r.run calls).Sound := by
  induction calls generalizing r with
  | nil => exact hr
  | cons call rest ih => exact ih ((hr.effect call).sound hr)

/-- An environment keeps its bindings through any calls, in their places. -/
theorem run_grows (hr : r.Sound) (henv : r.env? place = some env) (calls : List Call) :
    ∃ env', (r.run calls).env? place = some env' ∧ env.entries <+: env'.entries := by
  induction calls generalizing r env with
  | nil => exact ⟨env, henv, List.prefix_refl _⟩
  | cons call rest ih =>
      obtain ⟨next, hnext, hkeeps⟩ := (hr.effect call).grows hr henv
      obtain ⟨env', henv', hrest⟩ := ih ((hr.effect call).sound hr) hnext
      exact ⟨env', henv', hkeeps.trans hrest⟩

/-- Calls that bind elsewhere leave an environment alone. -/
theorem run_elsewhere (hr : r.Sound) (henv : r.env? place = some env) {calls : List Call}
    (hcalls : ∀ call ∈ calls, ¬ call.BindsIn place) : (r.run calls).env? place = some env := by
  induction calls generalizing r with
  | nil => exact henv
  | cons call rest ih =>
      obtain ⟨hcall, hrest⟩ := List.forall_mem_cons.mp hcalls
      exact ih ((hr.effect call).sound hr) ((hr.effect call).elsewhere hr henv hcall) hrest

/-- A call that binds ends as binding does in the environment as it is now. -/
theorem outcome_bind (henv : r.env? place = some env) (symbol : String) (value : Number)
    (source : Source) : r.outcome (.bind place symbol value source) =
      (env.bind symbol value source).map fun _ => () :=
  (perform_change henv fun env => env.bind symbol value source).1

/-! ## All environments -/

/-- What holds of the environments in use, and will hold however the calls go on. -/
structure WriteOnce (r : Registry) : Prop where
  /-- Every symbol is bound once, to a safe integer that is not negative. -/
  proper : ∀ place env, r.env? place = some env → env.Proper
  /-- Whatever calls follow, all bindings stay in their places, with their values and sources. -/
  kept : ∀ later place env, r.env? place = some env → ∃ env',
    (r.run later).env? place = some env' ∧ env.entries <+: env'.entries ∧
      ∀ symbol held, env.find? symbol = some held → env'.find? symbol = some held
  /-- A call that fails changes no environment and makes none. -/
  failed : ∀ call fault, r.outcome call = .error fault →
    ∀ place, (r.after call).env? place = r.env? place
  /-- A call that binds adds one binding at most, at the end. -/
  bound : ∀ call place value source, call.binds? = some (place, value, source) →
    r.outcome call = .ok () → ∃ env env', r.env? place = some env ∧
      (r.after call).env? place = some env' ∧ env.Gains value source env'
  /-- Binding succeeds just if the value is a size and the symbol is free or has it already. -/
  accepted : ∀ place env symbol value source, r.env? place = some env →
    (r.outcome (.bind place symbol value source) = .ok () ↔
      IsSize value ∧ ∀ held, env.find? symbol = some held → held.value = value)
  /-- A symbol that has been bound has its value. -/
  given : ∀ place env symbol value source, r.env? place = some env →
    r.outcome (.bind place symbol value source) = .ok () → ∃ env',
      (r.after (.bind place symbol value source)).env? place = some env' ∧
        env'.get? symbol = some value
  /-- A construction binds the symbols given in the order in which they are given first. -/
  constructed : ∀ initial, r.outcome (.construct initial) = .ok () →
    (r.after (.construct initial)).env? r.issued.length =
      some ⟨(initial.map Environment.given).eraseDups⟩
  /-- An environment in use can be cloned, and its clone has the same bindings. -/
  cloned : ∀ place env, r.env? place = some env → r.outcome (.clone place) = .ok () ∧
    (r.after (.clone place)).env? r.issued.length = some env
  /-- Calls that bind in other environments, be they clones or what it is a clone of, do not
  change an environment. -/
  apart : ∀ later place env, r.env? place = some env →
    (∀ call ∈ later, ¬ call.BindsIn place) → (r.run later).env? place = some env

/-- All of it holds as long as no table is shared. -/
theorem Sound.writeOnce (hr : r.Sound) : r.WriteOnce where
  proper place env henv := hr.proper_of_env? henv
  kept later place env henv := by
    obtain ⟨env', henv', hkeeps⟩ := run_grows hr henv later
    exact ⟨env', henv', hkeeps, fun _ _ => Environment.find?_of_prefix hkeeps⟩
  failed call fault hfault place := by
    have heffect := hr.effect call
    rw [hfault] at heffect
    exact heffect.unchanged hr place
  bound call place value source hbinds hok := by
    have heffect := hr.effect call
    rw [hok] at heffect
    exact heffect.gains hbinds
  accepted place env symbol value source henv := by
    rw [outcome_bind henv, ← Environment.bind_succeeds_iff source]
    cases env.bind symbol value source <;> simp [Except.map]
  given place env symbol value source henv hok := by
    have hends := perform_change henv fun env => env.bind symbol value source
    rw [outcome_bind henv] at hok
    cases hbind : env.bind symbol value source with
    | error fault =>
        rw [hbind] at hok
        cases hok
    | ok env' => exact ⟨env', hends.2 env' hbind, Environment.get?_of_bind hbind⟩
  constructed initial hok := by
    rcases construct_cases r initial with ⟨fault, _, _, _, hfailed⟩ | ⟨env, _, hmade, hdone⟩
    · cases (congrArg Prod.fst hfailed).symm.trans hok
    · have hafter : r.after (.construct initial) = r.withNew env := congrArg Prod.snd hdone
      rw [hafter, env?_withNew_new, ← Environment.ofBindings_entries hmade]
  cloned place env henv := by
    have hdone := perform_clone henv (hr.proper_of_env? henv)
    have hafter : r.after (.clone place) = r.withNew env := congrArg Prod.snd hdone
    exact ⟨congrArg Prod.fst hdone, hafter ▸ env?_withNew_new r env⟩
  apart later place env henv hlater := run_elsewhere hr henv hlater

/-- **Environments are write-once**, whatever calls have been made on however many of them. -/
theorem write_once (calls : List Call) : (empty.run calls).WriteOnce :=
  (empty_sound.run calls).writeOnce

end

/-- `a` is one in an environment and in its clone.  Binding `b` in the clone leaves the environment
alone, and binding `a` to three in the environment fails and leaves both alone. -/
theorem write_once_clone :
    let r := empty.run [.construct [("a", 1)], .clone 0]
    let held : Environment := ⟨[⟨"a", 1, .explicit⟩]⟩
    (r.env? 0 = some held ∧ r.env? 1 = some held) ∧
      ((r.run [.bind 1 "b" 2 .input]).env? 0 = some held ∧
        (r.run [.bind 1 "b" 2 .input]).env? 1 =
          some ⟨[⟨"a", 1, .explicit⟩, ⟨"b", 2, .input⟩]⟩) ∧
      ∃ fault, r.outcome (.bind 0 "a" 3 .input) = .error fault ∧
        ∀ place, (r.after (.bind 0 "a" 3 .input)).env? place = r.env? place := by
  intro r held
  have hr : r.WriteOnce := write_once [.construct [("a", 1)], .clone 0]
  have hheld : r.env? 0 = some held := rfl
  have hclone : ∀ call ∈ [Call.bind 1 "b" 2 .input], ¬ call.BindsIn 0 := by
    simp [Call.BindsIn, Call.binds?]
  exact ⟨⟨hheld, rfl⟩, ⟨hr.apart _ 0 held hheld hclone, rfl⟩, _, rfl, hr.failed _ _ rfl⟩

end ShapeGraph.Registry

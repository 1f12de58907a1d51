import ShapeGraph.Proofs.Size.Irreducible

/-!
# The text of a size tells the size

Faults, logs and the attributes of slices name sizes by their text.  Adding a negative literal is
written as taking its negation away, so a difference that takes a literal away would have the text
of a sum; but no such difference is ever made.  A symbol is written as its name, which could hold
brackets or blanks, or be the text of an integer; that is up to those who choose the names.

A text is read from the left.  It begins with a word: a literal, a name, what a bound is called,
or nothing if the operation stands within brackets only.  The word ends at a mark, and just if
that opens a bracket there is an operation.  A size within an operation is followed by a mark that
closes or parts, so its end is found, and so are the sign after it and the other side.

* `Plain` — the names that can be told from everything else in a text;
* `Legible` — sizes of integers and plain names without a difference that takes a literal away;
* `toList_text` — the word of a text and what follows it;
* `readable_literal`, `readable_symbol`, `readable_binary` — a size is told from its text and
  from what follows it;
* `text_inj` — legible sizes with one text are equal;
* `Recipe.text_tells` — so are all sizes that can be made, as far as their names are plain.
-/

namespace ShapeGraph

open ShapeGraph.Numeric (Arithmetic Number)

/-! ## Words and marks -/

/-- The marks that stand after a size within a text. -/
def closingMarks : List Char := [' ', ',', ')']

/-- The marks that end a word. -/
def marks : List Char := '(' :: closingMarks

/-- The text is at its end, or goes on with one of some characters. -/
def GoesOn (chars rest : List Char) : Prop :=
  ∀ c, rest.head? = some c → c ∈ chars

theorem goesOn_nil (chars : List Char) : GoesOn chars [] := fun _ h => nomatch h

/-- A text that begins with one of some characters goes on with one of them. -/
theorem goesOn_cons {chars : List Char} {c : Char} (h : c ∈ chars) (rest : List Char) :
    GoesOn chars (c :: rest) :=
  fun _ hc => Option.some.inj hc ▸ h

/-- A mark that closes a size ends a word as well. -/
theorem GoesOn.marked {rest : List Char} (h : GoesOn closingMarks rest) : GoesOn marks rest :=
  fun c hc => List.mem_cons_of_mem _ (h c hc)

/-- **Where a word ends** can be told from what follows it. -/
theorem word_append_inj {word word' rest rest' : List Char} (hword : ∀ c ∈ word, c ∉ marks)
    (hword' : ∀ c ∈ word', c ∉ marks) (hrest : GoesOn marks rest) (hrest' : GoesOn marks rest')
    (h : word ++ rest = word' ++ rest') : word = word' ∧ rest = rest' := by
  induction word generalizing word' with
  | nil =>
      cases word' with
      | nil => exact ⟨rfl, h⟩
      | cons c word' =>
          have hhead : rest.head? = some c := congrArg List.head? h
          exact absurd (hrest c hhead) (hword' c List.mem_cons_self)
  | cons c word ih =>
      cases word' with
      | nil =>
          have hhead : rest'.head? = some c := (congrArg List.head? h).symm
          exact absurd (hrest' c hhead) (hword c List.mem_cons_self)
      | cons c' word' =>
          obtain ⟨rfl, htail⟩ := List.cons.inj h
          obtain ⟨rfl, hrests⟩ := ih (List.forall_mem_cons.mp hword).2
            (List.forall_mem_cons.mp hword').2 htail
          exact ⟨rfl, hrests⟩

/-- A name is plain if it holds no mark and is not the text of an integer. -/
structure Plain (name : String) : Prop where
  unmarked : ∀ c ∈ name.toList, c ∉ marks
  not_integer : ∀ n : Int, name ≠ toString n

/-- A name with a character that integers are not written with is not the text of one. -/
theorem Plain.of_char {name : String} (hmarks : ∀ c ∈ name.toList, c ∉ marks) {c : Char}
    (hc : c ∈ name.toList) (hsign : c ≠ '-') (hdigit : c.isDigit = false) : Plain name where
  unmarked := hmarks
  not_integer := by
    rintro n rfl
    rcases Number.mem_text_int hc with h | h
    · exact hsign h
    · exact Bool.false_ne_true (hdigit.symm.trans h)

/-- The text of an integer holds no mark. -/
theorem integer_unmarked (n : Int) : ∀ c ∈ (Number.int n).text.toList, c ∉ marks := by
  intro c hc hmark
  rcases Number.mem_text_int hc with rfl | hdigit
  · revert hmark
    decide
  · have hmarks : ∀ c ∈ marks, c.isDigit = false := by
      simp [marks, closingMarks]
    exact Bool.false_ne_true ((hmarks c hmark).symm.trans hdigit)

/-! ## The text of an operation -/

namespace Operator

/-- What stands before the bracket. -/
def opening : Operator → String
  | min => "min"
  | max => "max"
  | add | sub | mul | div => ""

/-- What stands between the two sides. -/
def between : Operator → String
  | add => " + "
  | sub => " - "
  | mul => " * "
  | div => " / "
  | min | max => ", "

/-- No mark stands before the bracket. -/
theorem opening_unmarked (op : Operator) : ∀ c ∈ op.opening.toList, c ∉ marks := by
  cases op <;> simp [opening, marks, closingMarks]

/-- What stands between two sides begins with a mark that ends the first one. -/
theorem between_goesOn (op : Operator) (rest : List Char) :
    GoesOn closingMarks (op.between.toList ++ rest) := by
  cases op <;> exact goesOn_cons (by decide) _

/-- An operation is told from what stands before the bracket and between the sides. -/
theorem frame_inj {op op' : Operator} {rest rest' : List Char} (hopening : op.opening = op'.opening)
    (h : op.between.toList ++ rest = op'.between.toList ++ rest') : op = op' ∧ rest = rest' := by
  cases op <;> cases op' <;> simp_all [opening, between]

end Operator

namespace Size

/-- The operation and the right side that are written: adding a negative literal is taking its
negation away. -/
def written : Operator → Size → Operator × Size
  | .add, literal v => if v.lt 0 then (.sub, literal v.neg) else (.add, literal v)
  | op, r => (op, r)

/-- However the operation is written, the same stands before the bracket. -/
theorem written_opening (op : Operator) (r : Size) :
    (written op r).1.opening = op.opening := by
  unfold written
  split
  · split <;> rfl
  · rfl

/-- The word that a text begins with. -/
def word : Size → String
  | literal v => v.text
  | symbol name => name
  | binary op _ _ => op.opening

/-- What follows that word: nothing, or the sides of an operation within brackets. -/
def body : Size → List Char
  | literal _ | symbol _ => []
  | binary op l r => '(' :: (l.text.toList ++ ((written op r).1.between.toList ++
      ((written op r).2.text.toList ++ [')'])))

/-- **The text of a size** is its word and what follows that. -/
theorem toList_text (s : Size) : s.text.toList = s.word.toList ++ s.body := by
  cases s with
  | literal v => simp [text, word, body]
  | symbol name => simp [text, word, body]
  | binary op l r =>
      cases op with
      | add =>
          cases r with
          | literal v =>
              by_cases hv : v.lt 0 = true
              · simp [text, word, body, written, hv, Operator.opening, Operator.between]
              · simp [text, word, body, written, hv, Operator.opening, Operator.between]
          | symbol | binary =>
              simp [text, word, body, written, Operator.opening, Operator.between, Operator.sign]
      | sub | mul | div | min | max =>
          simp [text, word, body, written, Operator.opening, Operator.between, Operator.sign]

/-! ## Sizes that are told from their text -/

/-- Literals are integers, names are plain, and no difference takes a literal away. -/
def Legible : Size → Prop
  | literal v => ∃ n, v = .int n
  | symbol name => Plain name
  | binary op l r => l.Legible ∧ r.Legible ∧ (op = .sub → ∀ v, r ≠ literal v)

/-- The word of a legible size is not ended by a mark within it. -/
theorem Legible.word_unmarked {s : Size} (h : s.Legible) : ∀ c ∈ s.word.toList, c ∉ marks := by
  cases s with
  | literal v =>
      obtain ⟨n, rfl⟩ := h
      exact integer_unmarked n
  | symbol name => exact h.unmarked
  | binary op l r => exact op.opening_unmarked

/-- What follows the word of a size ends the word. -/
theorem body_goesOn (s : Size) {rest : List Char} (hrest : GoesOn closingMarks rest) :
    GoesOn marks (s.body ++ rest) := by
  cases s with
  | literal | symbol => exact hrest.marked
  | binary op l r => exact goesOn_cons List.mem_cons_self _

/-- Either a negative literal is added, or the operation is written as it is. -/
theorem written_cases (op : Operator) {r : Size} (hr : r.Legible) :
    (∃ n : Int, op = .add ∧ r = literal (.int n) ∧
        written op r = (.sub, literal (.int (-n)))) ∨
      written op r = (op, r) := by
  unfold written
  split
  · obtain ⟨n, rfl⟩ := hr
    split
    · exact .inl ⟨n, rfl, rfl, rfl⟩
    · exact .inr rfl
  · exact .inr rfl

/-- What is written for the right side is legible if the right side is. -/
theorem Legible.written {r : Size} (h : r.Legible) (op : Operator) :
    (Size.written op r).2.Legible := by
  rcases written_cases op h with ⟨n, _, _, hn⟩ | hkept
  · rw [hn]
    exact ⟨-n, rfl⟩
  · rwa [hkept]

/-- **What is written tells the operation**, as no difference takes a literal away. -/
theorem written_inj {op op' : Operator} {r r' : Size} (hr : r.Legible) (hr' : r'.Legible)
    (hop : op = .sub → ∀ v, r ≠ literal v) (hop' : op' = .sub → ∀ v, r' ≠ literal v)
    (h : written op r = written op' r') : op = op' ∧ r = r' := by
  rcases written_cases op hr with ⟨m, rfl, rfl, hm⟩ | hkept
  · rcases written_cases op' hr' with ⟨n, rfl, rfl, hn⟩ | hkept'
    · have hneg : -m = -n := by simpa [hm, hn] using h
      obtain rfl : m = n := Int.neg_inj.mp hneg
      exact ⟨rfl, rfl⟩
    · obtain ⟨hsub, hliteral⟩ := Prod.mk.inj (hm.symm.trans (h.trans hkept'))
      exact absurd hliteral.symm (hop' hsub.symm _)
  · rcases written_cases op' hr' with ⟨n, rfl, rfl, hn⟩ | hkept'
    · obtain ⟨hsub, hliteral⟩ := Prod.mk.inj (hkept.symm.trans (h.trans hn))
      exact absurd hliteral (hop hsub _)
    · exact Prod.mk.inj (hkept.symm.trans (h.trans hkept'))

/-- The size is told from its text and what follows: no other legible size, followed by anything,
makes the same characters. -/
def Readable (s : Size) : Prop :=
  ∀ {t : Size} {rest rest' : List Char}, t.Legible → GoesOn closingMarks rest →
    GoesOn closingMarks rest' → s.text.toList ++ rest = t.text.toList ++ rest' →
      s = t ∧ rest = rest'

/-- The words of two texts that agree are the same, and so is what follows them. -/
theorem word_of_text {s t : Size} {rest rest' : List Char} (hs : s.Legible) (ht : t.Legible)
    (hrest : GoesOn closingMarks rest) (hrest' : GoesOn closingMarks rest')
    (h : s.text.toList ++ rest = t.text.toList ++ rest') :
    s.word = t.word ∧ s.body ++ rest = t.body ++ rest' := by
  rw [toList_text, toList_text, List.append_assoc, List.append_assoc] at h
  obtain ⟨hword, hbody⟩ := word_append_inj hs.word_unmarked ht.word_unmarked
    (body_goesOn s hrest) (body_goesOn t hrest') h
  exact ⟨String.toList_inj.mp hword, hbody⟩

/-- Nothing that follows a size opens a bracket. -/
theorem rest_ne_body {op : Operator} {l r : Size} {rest rest' : List Char}
    (hrest : GoesOn closingMarks rest) : rest ≠ (binary op l r).body ++ rest' := by
  rintro rfl
  exact absurd (hrest '(' rfl) (by decide)

/-- An integer is told from its text. -/
theorem readable_literal (n : Int) : (literal (.int n)).Readable := by
  intro t rest rest' ht hrest hrest' h
  have hlegible : (literal (.int n)).Legible := ⟨n, rfl⟩
  obtain ⟨hword, hbody⟩ := word_of_text hlegible ht hrest hrest' h
  cases t with
  | literal v =>
      obtain ⟨m, rfl⟩ := ht
      obtain rfl := Number.text_int_inj hword
      exact ⟨rfl, hbody⟩
  | symbol name => exact absurd hword.symm (ht.not_integer n)
  | binary op l r => exact absurd hbody (rest_ne_body hrest)

/-- A plain name is told from its text. -/
theorem readable_symbol {name : String} (hname : Plain name) : (symbol name).Readable := by
  intro t rest rest' ht hrest hrest' h
  have hlegible : (symbol name).Legible := hname
  obtain ⟨hword, hbody⟩ := word_of_text hlegible ht hrest hrest' h
  cases t with
  | literal v =>
      obtain ⟨n, rfl⟩ := ht
      exact absurd hword (hname.not_integer n)
  | symbol name' =>
      obtain rfl : name = name' := hword
      exact ⟨rfl, hbody⟩
  | binary op l r => exact absurd hbody (rest_ne_body hrest)

/-- **An operation is told from its text** if its left side is, and the right side that is
written. -/
theorem readable_binary {op : Operator} {l r : Size} (h : (binary op l r).Legible)
    (hl : l.Readable) (hr : (written op r).2.Readable) : (binary op l r).Readable := by
  intro t rest rest' ht hrest hrest' htext
  obtain ⟨hword, hbody⟩ := word_of_text h ht hrest hrest' htext
  cases t with
  | literal | symbol => exact absurd hbody.symm (rest_ne_body hrest')
  | binary op' l' r' =>
      -- what follows the bracket is the left side, the sign and the right side, one by one
      simp only [body, List.cons_append, List.append_assoc, List.cons.injEq, true_and] at hbody
      obtain ⟨rfl, hsign⟩ := hl ht.1 (Operator.between_goesOn _ _) (Operator.between_goesOn _ _)
        hbody
      obtain ⟨hop, hright⟩ := Operator.frame_inj
        (by rw [written_opening, written_opening]; exact hword) hsign
      obtain ⟨hside, hend⟩ := hr (ht.2.1.written op') (goesOn_cons (by decide) _)
        (goesOn_cons (by decide) _) hright
      obtain ⟨rfl, rfl⟩ := written_inj h.2.1 ht.2.1 h.2.2 ht.2.2 (Prod.ext hop hside)
      exact ⟨rfl, (List.cons.inj hend).2⟩

/-- **Legible sizes are told from their text.** -/
theorem Legible.readable {s : Size} (h : s.Legible) : s.Readable := by
  induction s with
  | literal v =>
      obtain ⟨n, rfl⟩ := h
      exact readable_literal n
  | symbol name => exact readable_symbol h
  | binary op l r ihl ihr =>
      refine readable_binary h (ihl h.1) ?_
      -- a negation that is written is no part of the size, so the induction does not reach it
      rcases written_cases op h.2.1 with ⟨n, _, _, hn⟩ | hkept
      · rw [hn]
        exact readable_literal (-n)
      · rw [hkept]
        exact ihr h.2.1

/-- **No two legible sizes have one text.** -/
theorem text_inj {s t : Size} (hs : s.Legible) (ht : t.Legible) (h : s.text = t.text) : s = t :=
  (hs.readable ht (goesOn_nil _) (goesOn_nil _) (congrArg (·.toList ++ []) h)).1

/-- A symbol with the name `3` would be taken for the literal. -/
example : (binary .add (symbol "n") (literal (.int (-3)))).text =
    (binary .sub (symbol "n") (symbol "3")).text := by
  decide

/-- Normal forms of integers and plain names are legible. -/
theorem Normal.legible [Arithmetic] {s : Size} (hnormal : s.Normal) (hs : s.Integral)
    (hnames : ∀ name ∈ s.names, Plain name) : s.Legible := by
  induction s with
  | literal v => exact hs
  | symbol name => exact hnames name (List.mem_singleton.mpr rfl)
  | binary op l r ihl ihr =>
      obtain ⟨hleft, hright⟩ := List.forall_mem_append.mp hnames
      refine ⟨ihl hnormal.1 hs.1 hleft, ihr hnormal.2.1 hs.2 hright, ?_⟩
      rintro rfl v rfl
      exact sub_literal_ne l v (Except.ok.inj hnormal.2.2)

end Size

/-! ## Sizes that can be made -/

namespace Recipe

/-- **The text of a size tells the size.**  Any two sizes that can be made have the same text
just if they are equal, as far as their literals are integers and their names are plain. -/
theorem text_tells [Arithmetic] {p q : Recipe} {s t : Size} (hp : p.size = .ok s)
    (hq : q.size = .ok t) (hs : s.Integral) (ht : t.Integral)
    (hsnames : ∀ name ∈ s.names, Plain name) (htnames : ∀ name ∈ t.names, Plain name) :
    s.text = t.text ↔ s.same t = true := by
  have hsl : s.Legible := (size_normal hp).legible hs hsnames
  have htl : t.Legible := (size_normal hq).legible ht htnames
  rw [Size.same_iff hs ht]
  exact ⟨Size.text_inj hsl htl, congrArg Size.text⟩

/-- Symbols may have the names of the bounds.  Taking five away and adding minus five come to one
text, and so to equal sizes.  With the sides exchanged the lesser of the two is another size, and
so it has another text. -/
theorem text_tells_bound :
    let p := binary .min (binary .sub (symbol "max") (number 5)) (symbol "min")
    let q := binary .min (binary .add (number (.int (-5))) (symbol "max")) (symbol "min")
    let r := binary .min (symbol "min") (binary .sub (symbol "max") (number 5))
    let offset := Size.binary .add (.symbol "max") (.literal (.int (-5)))
    let s := Size.binary .min offset (.symbol "min")
    let t := Size.binary .min (.symbol "min") offset
    (p.size = .ok s ∧ q.size = .ok s ∧ s.text = "min((max - 5), min)" ∧ s.same s = true) ∧
      r.size = .ok t ∧ s.same t = false ∧ s.text ≠ t.text := by
  intro p q r offset s t
  have hp : p.size = .ok s := rfl
  have hq : q.size = .ok s := rfl
  have hr : r.size = .ok t := rfl
  have hoffset : offset.Integral := ⟨trivial, -5, rfl⟩
  have hs : s.Integral := ⟨hoffset, trivial⟩
  have ht : t.Integral := ⟨trivial, hoffset⟩
  have hmin : Plain "min" :=
    .of_char (c := 'm') (by simp [marks, closingMarks]) (by decide) (by decide) (by decide)
  have hmax : Plain "max" :=
    .of_char (c := 'm') (by simp [marks, closingMarks]) (by decide) (by decide) (by decide)
  have hsnames : ∀ name ∈ ["max", "min"], Plain name := by simp [hmin, hmax]
  have htnames : ∀ name ∈ ["min", "max"], Plain name := by simp [hmin, hmax]
  have hother : s.same t = false := by decide
  refine ⟨⟨hp, hq, by decide, (text_tells hp hq hs hs hsnames hsnames).mp rfl⟩, hr, hother, ?_⟩
  rw [Ne, text_tells hp hr hs ht hsnames htnames, hother]
  exact Bool.false_ne_true

end Recipe

end ShapeGraph

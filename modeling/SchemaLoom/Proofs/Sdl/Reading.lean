/-
Readers that take what a printer wrote.

A reader takes some tokens as a value if it returns the value and the tokens behind, as long as
the next of those is one that may follow (`Takes`).  What may follow a value differs: a type must
not be followed by a required mark, since the mark would belong to it.  Readers are put together
like the tokens they take, so every production has one lemma, made of those of its parts
(`Takes.bind`).

A reader looks at the next token before it takes it, and there need not be one that it takes.  So
for parts that may be empty it has to be told what is in front of what follows (`Leads`).

What is read depends on the characters of a text alone.  Given as a list of them, a fixed
document is read by evaluation without its text being decoded first (`Document.holds_parse`).
-/
import SchemaLoom.Outcome
import SchemaLoom.Sdl.Document.Parser

namespace SchemaLoom.Sdl

variable {α β : Type}

/-- The token is one that a text divides into, and no sign that the division stops. -/
def Token.IsValid (t : Token) : Prop := ∀ fault, t ≠ .invalid fault

namespace Reader

/-- The reader `r` takes the tokens `ts` as the value `a` in front of a token with `next`.  The
bound on repetitions has to leave room for all tokens. -/
def Takes (r : Reader α) (ts : List Token) (a : α) (next : Token → Prop) : Prop :=
  ∀ bound rest, (∀ t ∈ rest.head?, next t) → (ts ++ rest).length < bound →
    r bound (ts ++ rest) = .ok (a, rest)

/-- What may follow the tokens `ts`, and the first of them, may follow what is in front of them. -/
def Leads (ts : List Token) (next before : Token → Prop) : Prop :=
  (∀ t ∈ ts.head?, before t) ∧ (ts = [] → ∀ t, next t → before t)

theorem leads_cons {t : Token} {ts : List Token} {next before : Token → Prop} (h : before t) :
    Leads (t :: ts) next before := by
  refine ⟨?_, ?_⟩
  · intro u hu
    cases hu
    exact h
  · intro hnil
    cases hnil

theorem leads_nil {next before : Token → Prop} (h : ∀ t, next t → before t) :
    Leads [] next before := by
  refine ⟨?_, fun _ => h⟩
  intro t ht
  cases ht

theorem Leads.head {ts rest : List Token} {next before : Token → Prop}
    (h : Leads ts next before) (hrest : ∀ t ∈ rest.head?, next t) :
    ∀ t ∈ (ts ++ rest).head?, before t := by
  cases ts with
  | nil => exact fun t ht => h.2 rfl t (hrest t ht)
  | cons t ts => exact h.1

/-! ### Composition -/

theorem Takes.weaken {r : Reader α} {ts : List Token} {a : α} {next less : Token → Prop}
    (h : Takes r ts a next) (hless : ∀ t, less t → next t) : Takes r ts a less :=
  fun bound rest hrest hbound => h bound rest (fun t ht => hless t (hrest t ht)) hbound

theorem takes_pure (a : α) (next : Token → Prop) : Takes (pure a) [] a next :=
  fun _ _ _ _ => rfl

/-- **Readers one after the other take tokens one after the other**, if the second leads on from
where the first ends (`Leads`). -/
theorem Takes.bind {r : Reader α} {f : α → Reader β} {ts us : List Token} {a : α} {b : β}
    {next last : Token → Prop} (hfirst : Takes r ts a next) (hthen : Takes (f a) us b last)
    (hleads : Leads us last next) : Takes (r >>= f) (ts ++ us) b last := by
  intro bound rest hrest hbound
  rw [List.append_assoc] at hbound ⊢
  have first := hfirst bound (us ++ rest) (hleads.head hrest) hbound
  have others := hthen bound rest hrest (by simp only [List.length_append] at hbound ⊢; omega)
  show (r bound (ts ++ (us ++ rest)) >>= fun s => f s.1 bound s.2) = _
  rw [first]
  exact others

/-- A reader that takes one token in front of another reader. -/
theorem Takes.first {r : Reader α} {f : α → Reader β} {t : Token} {us : List Token} {a : α} {b : β}
    {next last : Token → Prop} (hfirst : Takes r [t] a next) (hthen : Takes (f a) us b last)
    (hleads : Leads us last next) : Takes (r >>= f) (t :: us) b last :=
  hfirst.bind hthen hleads

/-- A reader that takes nothing in front of one that does. -/
theorem Takes.after {r : Reader α} {f : α → Reader β} {us : List Token} {a : α} {b : β}
    {next last : Token → Prop} (hfirst : Takes r [] a next) (hthen : Takes (f a) us b last)
    (hleads : Leads us last next) : Takes (r >>= f) us b last := by
  simpa using hfirst.bind hthen hleads

/-- A reader in front of one that takes nothing. -/
theorem Takes.last {r : Reader α} {f : α → Reader β} {ts : List Token} {a : α} {b : β}
    {next : Token → Prop} (hfirst : Takes r ts a next) (hthen : Takes (f a) [] b next) :
    Takes (r >>= f) ts b next := by
  simpa using hfirst.bind hthen (leads_nil fun _ h => h)

/-- A reader whose value is put into another, without taking more. -/
theorem Takes.thenPure {r : Reader α} {ts : List Token} {a : α} {next : Token → Prop}
    (h : Takes r ts a next) (f : α → β) : Takes (r >>= fun x => pure (f x)) ts (f a) next :=
  h.last (takes_pure (f a) next)

theorem Takes.map {r : Reader α} {ts : List Token} {a : α} {next : Token → Prop}
    (h : Takes r ts a next) (f : α → β) : Takes (f <$> r) ts (f a) next := by
  intro bound rest hrest hbound
  show (r bound (ts ++ rest) >>= fun s => Except.ok (f s.1, s.2)) = _
  rw [h bound rest hrest hbound]
  rfl

/-- The bound on repetitions is more than the number of tokens. -/
theorem takes_read {f : Nat → Reader β} {ts : List Token} {b : β} {next : Token → Prop}
    (h : ∀ bound, ts.length < bound → Takes (f bound) ts b next) :
    Takes (read >>= f) ts b next := by
  intro bound rest hrest hbound
  refine h bound ?_ bound rest hrest hbound
  simp only [List.length_append] at hbound
  omega

/-! ### Looking ahead

The next token is one of those that are to be taken if there are any, and else one that may
follow.
-/

/-- Looking at the first of the tokens that are taken. -/
theorem takes_peek_cons {f : Token → Reader β} {t : Token} {ts : List Token} {b : β}
    {next : Token → Prop} (h : Takes (f t) (t :: ts) b next) :
    Takes (peek >>= f) (t :: ts) b next :=
  fun bound rest hrest hbound => h bound rest hrest hbound

/-- Looking at a token behind those that are taken. -/
theorem takes_peek_nil {f : Token → Reader β} {b : β} {next : Token → Prop}
    (h : ∀ t, (t = .eof ∨ next t) → Takes (f t) [] b next) : Takes (peek >>= f) [] b next := by
  intro bound rest hrest hbound
  refine h (rest.headD .eof) ?_ bound rest hrest hbound
  cases rest with
  | nil => exact Or.inl rfl
  | cons t rest => exact Or.inr (hrest t rfl)

theorem advance_eq (bound : Nat) {t : Token} {rest : List Token}
    (hrest : ∀ u ∈ rest.head?, u.IsValid) : advance bound (t :: rest) = .ok ((), rest) := by
  cases rest with
  | nil => rfl
  | cons u rest =>
    have hvalid := hrest u rfl
    cases u with
    | invalid fault => exact absurd rfl (hvalid fault)
    | _ => rfl

/-- Taking a token leaves the others. -/
theorem eq_drop_of_advance {bound : Nat} {ts rest : List Token} {u : Unit}
    (h : advance bound ts = .ok (u, rest)) : rest = ts.drop 1 := by
  rcases ts with _ | ⟨t, _ | ⟨v, ts⟩⟩
  · cases h
    rfl
  · cases h
    rfl
  · cases v with
    | invalid fault => cases h
    | _ =>
      cases h
      rfl

theorem takes_advance (t : Token) : Takes advance [t] () Token.IsValid :=
  fun bound _ hrest _ => advance_eq bound hrest

/-! ### Single tokens -/

theorem takes_mark (m : Punctuator) : Takes (mark m) [.punctuator m] () Token.IsValid := by
  unfold mark
  refine takes_peek_cons ?_
  simpa using takes_advance (.punctuator m)

theorem takes_name (n : String) : Takes name [.name n] n Token.IsValid := by
  unfold name
  refine takes_peek_cons ?_
  exact (takes_advance (.name n)).bind (takes_pure n _) (leads_nil fun _ h => h)

theorem takes_optionalMark (m : Punctuator) :
    Takes (optionalMark m) [.punctuator m] true Token.IsValid := by
  unfold optionalMark
  refine takes_peek_cons ?_
  rw [if_pos rfl]
  exact (takes_advance (.punctuator m)).bind (takes_pure true _) (leads_nil fun _ h => h)

theorem takes_no_mark (m : Punctuator) :
    Takes (optionalMark m) [] false fun t => t ≠ .punctuator m := by
  unfold optionalMark
  refine takes_peek_nil ?_
  intro t ht
  have hother : t ≠ .punctuator m := by
    rcases ht with rfl | ht
    · intro h
      cases h
    · exact ht
  rw [if_neg hother]
  exact takes_pure false _

theorem takes_no_keyword (word : String) :
    Takes (optionalKeyword word) [] false fun t => t ≠ .name word := by
  unfold optionalKeyword
  refine takes_peek_nil ?_
  intro t ht
  have hother : t ≠ .name word := by
    rcases ht with rfl | ht
    · intro h
      cases h
    · exact ht
  rw [if_neg hother]
  exact takes_pure false _

/-! ### Repetition

An item ends in front of the next one, so the tokens that begin an item must be ones that may
follow an item (`Repeats`).
-/

theorem length_le_length_flatMap {tokens : α → List Token} {as : List α}
    (hnonempty : ∀ a ∈ as, tokens a ≠ []) : as.length ≤ (as.flatMap tokens).length := by
  induction as with
  | nil => simp
  | cons a as ih =>
    have := List.length_pos_iff.2 (hnonempty a (by simp))
    have := ih fun b hb => hnonempty b (by simp [hb])
    simp only [List.flatMap_cons, List.length_cons, List.length_append]
    omega

/-- What is needed of an item to be taken several times in a row: it starts with a token that may
follow an item. -/
structure Repeats (item : Reader α) (tokens : α → List Token) (next : Token → Prop) (as : List α) :
    Prop where
  takes : ∀ a ∈ as, Takes item (tokens a) a next
  nonempty : ∀ a ∈ as, tokens a ≠ []
  starts : ∀ a ∈ as, ∀ t ∈ (tokens a).head?, next t

theorem Repeats.tail {item : Reader α} {tokens : α → List Token} {next : Token → Prop} {a : α}
    {as : List α} (h : Repeats item tokens next (a :: as)) : Repeats item tokens next as where
  takes b hb := h.takes b (by simp [hb])
  nonempty b hb := h.nonempty b (by simp [hb])
  starts b hb := h.starts b (by simp [hb])

/-- What follows an item: the next one, or what follows them all. -/
theorem Repeats.leads {item : Reader α} {tokens : α → List Token} {next last : Token → Prop}
    {as : List α} (h : Repeats item tokens next as) {us : List Token}
    (hleads : Leads us last next) : Leads (as.flatMap tokens ++ us) last next := by
  cases as with
  | nil => exact hleads
  | cons a as =>
    have hfirst := h.starts a (by simp)
    have hnonempty := h.nonempty a (by simp)
    cases htokens : tokens a with
    | nil => exact absurd htokens hnonempty
    | cons t ts =>
      rw [List.flatMap_cons, htokens]
      exact leads_cons (hfirst t (by simp [htokens]))

theorem takes_itemsWithin {closing : Punctuator} {item : Reader α} {tokens : α → List Token}
    {next : Token → Prop} (hclosing : next (.punctuator closing)) :
    ∀ (as : List α) (bound : Nat), as.length < bound → Repeats item tokens next as →
      (∀ a ∈ as, ∀ t ∈ (tokens a).head?, t ≠ .punctuator closing) →
      Takes (itemsWithin closing item bound) (as.flatMap tokens ++ [.punctuator closing]) as
        Token.IsValid := by
  intro as
  induction as with
  | nil =>
    intro bound hbound _ _
    obtain ⟨more, rfl⟩ := Nat.exists_eq_add_of_lt hbound
    simp only [List.length_nil, Nat.zero_add]
    unfold itemsWithin
    refine (takes_optionalMark closing).first ?_ (leads_nil fun _ h => h)
    exact takes_pure [] _
  | cons a as ih =>
    intro bound hbound hrepeats hopen
    obtain ⟨more, rfl⟩ : ∃ more, bound = more + 1 := ⟨bound - 1, by simp at hbound; omega⟩
    have others := ih more (by simp at hbound; omega) hrepeats.tail
      fun b hb => hopen b (by simp [hb])
    have first := hrepeats.takes a (by simp)
    have hleads : Leads (as.flatMap tokens ++ [Token.punctuator closing]) Token.IsValid next :=
      hrepeats.tail.leads (leads_cons hclosing)
    unfold itemsWithin
    refine (takes_no_mark closing).after ?_ ?_
    · rw [List.flatMap_cons, List.append_assoc]
      exact first.bind (others.thenPure (a :: ·)) hleads
    · cases htokens : tokens a with
      | nil => exact absurd htokens (hrepeats.nonempty a (by simp))
      | cons t ts =>
        rw [List.flatMap_cons, htokens]
        exact leads_cons (hopen a (by simp) t (by simp [htokens]))

/-- **Items up to a closing mark are taken one after the other**, as `Repeats` has them. -/
theorem takes_itemsUntil {closing : Punctuator} {item : Reader α} {tokens : α → List Token}
    {next : Token → Prop} (hclosing : next (.punctuator closing)) {as : List α}
    (hrepeats : Repeats item tokens next as)
    (hopen : ∀ a ∈ as, ∀ t ∈ (tokens a).head?, t ≠ .punctuator closing) :
    Takes (itemsUntil closing item) (as.flatMap tokens ++ [.punctuator closing]) as
      Token.IsValid := by
  unfold itemsUntil
  refine takes_read fun bound hbound => ?_
  have := length_le_length_flatMap hrepeats.nonempty
  simp only [List.length_append] at hbound
  exact takes_itemsWithin hclosing as bound (by omega) hrepeats hopen

section Some

variable {item : Reader α} {tokens : α → List Token} {next : Token → Prop} {a : α} {as : List α}

/-- At least one item up to a closing mark. -/
theorem takes_someUntil {closing : Punctuator} (hclosing : next (.punctuator closing))
    (hrepeats : Repeats item tokens next (a :: as))
    (hopen : ∀ b ∈ as, ∀ t ∈ (tokens b).head?, t ≠ .punctuator closing) :
    Takes (someUntil closing item) ((a :: as).flatMap tokens ++ [.punctuator closing]) (a :: as)
      Token.IsValid := by
  have first := hrepeats.takes a (by simp)
  have others := takes_itemsUntil hclosing hrepeats.tail hopen
  unfold someUntil
  rw [List.flatMap_cons, List.append_assoc]
  exact first.bind (others.thenPure (a :: ·)) (hrepeats.tail.leads (leads_cons hclosing))

/-- What is in front of items is followed by the first of them. -/
theorem Repeats.leads_valid (hrepeats : Repeats item tokens next (a :: as))
    (hvalid : ∀ t, next t → t.IsValid) (us : List Token) :
    Leads ((a :: as).flatMap tokens ++ us) Token.IsValid Token.IsValid := by
  cases htokens : tokens a with
  | nil => exact absurd htokens (hrepeats.nonempty a (by simp))
  | cons t ts =>
    rw [List.flatMap_cons, htokens]
    exact leads_cons (hvalid t (hrepeats.starts a (by simp) t (by simp [htokens])))

/-- Items between marks, of which there has to be one. -/
theorem takes_someBetween (opening closing : Punctuator) (hclosing : next (.punctuator closing))
    (hrepeats : Repeats item tokens next (a :: as))
    (hopen : ∀ b ∈ as, ∀ t ∈ (tokens b).head?, t ≠ .punctuator closing)
    (hvalid : ∀ t, next t → t.IsValid) :
    Takes (someBetween opening closing item)
      (.punctuator opening :: ((a :: as).flatMap tokens ++ [.punctuator closing])) (a :: as)
      Token.IsValid :=
  (takes_mark opening).first (takes_someUntil hclosing hrepeats hopen)
    (hrepeats.leads_valid hvalid _)

/-- Optional items between marks, if there is one. -/
theorem takes_optionalBetween (opening closing : Punctuator)
    (hclosing : next (.punctuator closing)) (hrepeats : Repeats item tokens next (a :: as))
    (hopen : ∀ b ∈ as, ∀ t ∈ (tokens b).head?, t ≠ .punctuator closing)
    (hvalid : ∀ t, next t → t.IsValid) :
    Takes (optionalBetween opening closing item)
      (.punctuator opening :: ((a :: as).flatMap tokens ++ [.punctuator closing])) (a :: as)
      Token.IsValid :=
  (takes_optionalMark opening).first (takes_someUntil hclosing hrepeats hopen)
    (hrepeats.leads_valid hvalid _)

end Some

theorem takes_optionalBetween_nil {opening closing : Punctuator} {item : Reader α} :
    Takes (optionalBetween opening closing item) [] [] fun t => t ≠ .punctuator opening := by
  unfold optionalBetween
  refine (takes_no_mark opening).after ?_ (leads_nil fun _ h => h)
  exact takes_pure [] _

theorem takes_whileWithin {test : Token → Bool} {item : Reader α} {tokens : α → List Token}
    {next : Token → Prop} {last : Token → Prop}
    (hlast : ∀ t, last t → test t = false ∧ next t) (heof : test .eof = false) :
    ∀ (as : List α) (bound : Nat), as.length < bound → Repeats item tokens next as →
      (∀ a ∈ as, ∀ t ∈ (tokens a).head?, test t = true) →
      Takes (whileWithin test item bound) (as.flatMap tokens) as last := by
  intro as
  induction as with
  | nil =>
    intro bound hbound _ _
    obtain ⟨more, rfl⟩ : ∃ more, bound = more + 1 := ⟨bound - 1, by simp at hbound; omega⟩
    unfold whileWithin
    refine takes_peek_nil ?_
    intro t ht
    have htest : test t = false := by
      rcases ht with rfl | ht
      · exact heof
      · exact (hlast t ht).1
    rw [htest]
    exact takes_pure [] _
  | cons a as ih =>
    intro bound hbound hrepeats htest
    obtain ⟨more, rfl⟩ : ∃ more, bound = more + 1 := ⟨bound - 1, by simp at hbound; omega⟩
    have others := ih more (by simp at hbound; omega) hrepeats.tail
      fun b hb => htest b (by simp [hb])
    have first := hrepeats.takes a (by simp)
    -- What may follow the item is the first token of the others, or what follows them all.
    have hleads : Leads (as.flatMap tokens) last next := by
      simpa using hrepeats.tail.leads (leads_nil fun t ht => (hlast t ht).2)
    unfold whileWithin
    cases htokens : tokens a with
    | nil => exact absurd htokens (hrepeats.nonempty a (by simp))
    | cons t ts =>
      have hfirst : test t = true := htest a (by simp) t (by simp [htokens])
      rw [List.flatMap_cons, htokens, List.cons_append]
      refine takes_peek_cons ?_
      rw [hfirst, if_pos rfl, ← List.cons_append, ← htokens]
      exact first.bind (others.thenPure (a :: ·)) hleads

/-- **Items that begin with certain tokens are taken as long as such a token comes next.** -/
theorem takes_whileNext {test : Token → Bool} {item : Reader α} {tokens : α → List Token}
    {next last : Token → Prop} (hlast : ∀ t, last t → test t = false ∧ next t)
    (heof : test .eof = false) {as : List α} (hrepeats : Repeats item tokens next as)
    (htest : ∀ a ∈ as, ∀ t ∈ (tokens a).head?, test t = true) :
    Takes (whileNext test item) (as.flatMap tokens) as last := by
  unfold whileNext
  refine takes_read fun bound hbound => ?_
  have := length_le_length_flatMap hrepeats.nonempty
  exact takes_whileWithin hlast heof as bound (by omega) hrepeats htest

/-! ### Characters -/

/-- Runs a reader on characters. -/
def runOn (reader : Reader α) (cs : List Char) : Except SyntaxFault α :=
  match lex cs with
  | .invalid fault :: _ => .error (.lexical fault)
  | tokens => (StateT.run (ReaderT.run reader (tokens.length + 1)) tokens).map (·.1)

end Reader

/-- The document that characters consist of. -/
def Document.ofChars (cs : List Char) : Except SyntaxFault Document :=
  if cs.all Text.isBlankChar then .ok Document.empty
  else Reader.runOn (return ⟨← Reader.definitions⟩) cs

theorem Document.parse_ofList (cs : List Char) :
    Document.parse (String.ofList cs) = Document.ofChars cs := by
  unfold Document.parse Document.parseStrict Reader.run Text.isBlank
  rw [String.toList_ofList]
  rfl

/-- What holds of the document that the characters of a text consist of holds of that of the
text. -/
theorem Document.holds_parse {text : String} {cs : List Char} {P : Document → Prop}
    (htext : text = String.ofList cs) (h : Outcome.Holds (Document.ofChars cs) P) :
    Outcome.Holds (Document.parse text) P := by
  rw [htext, Document.parse_ofList]
  exact h

end SchemaLoom.Sdl

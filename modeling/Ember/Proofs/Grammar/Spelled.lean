import Ember.Proofs.Grammar.LineEnd
import Ember.Proofs.Grammar.Success
import Ember.Proofs.Grammar.Yields
import Ember.Proofs.Literals
import Ember.Proofs.Tree.Label

/-!
# Grammar — lexemes that are met one after the other

What the parser reads shows lexemes of the text. A tree is built up in another order than it is
shown, parts are taken over from one tree to another, and some are dropped. But at any point the
lexemes that are shown by what has been read so far stand in the text before that point, one after
the other.

* `Lexeme.StandsFor`: what a lexeme stands for.
* `Spelled`: lexemes that stand one after the other between two cursors.
* `Parser.Spells`: a parser goes on after some lexemes, and what it gives shows lexemes in turn.
* `Parser.Finds`: a parser of a single token gives a token that comes next.
-/

namespace Ember

/-! ### Lexemes -/

namespace Lexeme

variable {cs rest w : List Char} {n : Nat} {kind : Tree.Kind} {value : Datum} {x : Char}

/-- The lexeme of a node of some kind stands for the value of the node. -/
inductive StandsFor : Tree.Kind → List Char → Datum → Prop where
  | integer {w rest : List Char} (h : number? (w ++ rest) = some w.length)
      (hw : isFloat w = false) : StandsFor .number w (.int (Text.digitsValue w))
  | float {w rest : List Char} (h : number? (w ++ rest) = some w.length)
      (hw : isFloat w) : StandsFor .number w (.float (Decimal.readFloat w))
  | string {inside value : List Char} (h : Text.Denotes inside value) :
      StandsFor .string (enquoted inside) (.str (String.ofList value))
  | identifier {n : String} (h : IsName n) : StandsFor .identifier n.toList (.str n)
  | trueWord : StandsFor .bool "true".toList (.bool true)
  | falseWord : StandsFor .bool "false".toList (.bool false)
  | nilWord : StandsFor .nil "nil".toList .null
  | unary {op : String} (h : op ∈ Grammar.prefixOperators) : StandsFor .unary op.toList (.str op)
  | call : StandsFor .call "(".toList .null
  | index : StandsFor .index "[".toList .null

/-- Only nodes of some kinds show a lexeme. -/
theorem StandsFor.isLexeme (h : StandsFor kind w value) : kind.isLexeme := by
  cases h <;> rfl

/-- A lexeme is not empty. -/
theorem StandsFor.ne_nil (h : StandsFor kind w value) : w ≠ [] := by
  cases h with
  | integer h _ | float h _ => exact List.ne_nil_of_length_pos (number?_pos h)
  | string h => exact List.cons_ne_nil _ _
  | identifier h =>
      obtain ⟨x, xs, hn, -⟩ := h.word
      rw [hn]
      exact List.cons_ne_nil x xs
  | unary h =>
      have hall : ∀ op ∈ Grammar.prefixOperators, op.toList ≠ [] := by decide
      exact hall _ h
  | trueWord | falseWord | nilWord | call | index => decide

/-- A number ends with its line. -/
theorem not_newline_of_number? (h : number? (w ++ rest) = some w.length) : '\n' ∉ w := by
  intro hmem
  obtain ⟨u, v, rfl⟩ := List.append_of_mem hmem
  have hline : NewLine ('\n' :: (v ++ rest)) := .inr ⟨_, rfl⟩
  rw [List.append_assoc, List.cons_append, number?_append hline.boundary] at h
  have hle := number?_le h
  rw [List.length_append, List.length_cons] at hle
  omega

/-- The inside of a string literal stands on one line. -/
theorem not_newline_of_denotes {inside vs : List Char} (h : Text.Denotes inside vs) :
    '\n' ∉ inside := by
  induction h with
  | nil => exact List.not_mem_nil
  | plain hx _ ih => simp [ih, hx.2.2.symm]
  | escape hx _ ih => simp [ih, (Text.escapeOf?_of_mem hx).2.1.symm]
  | unknown _ hline _ ih => simp [ih, hline.symm]

/-- A lexeme ends with its line. -/
theorem StandsFor.not_newline (h : StandsFor kind w value) : '\n' ∉ w := by
  cases h with
  | integer h _ | float h _ => exact not_newline_of_number? h
  | string h =>
      have hquote : '\n' ≠ Text.doubleQuote := by decide
      simp [enquoted, not_newline_of_denotes h, hquote]
  | identifier h =>
      intro hmem
      exact absurd (Grammar.isNameChar_of_isWord h.word _ hmem) (by decide)
  | unary h =>
      have hall : ∀ op ∈ Grammar.prefixOperators, '\n' ∉ op.toList := by decide
      exact hall _ h
  | trueWord | falseWord | nilWord | call | index => decide

/-! ### String literals -/

/-- A backslash and a character on its line stand for something. -/
theorem exists_denotes_backslash {inside vs : List Char} (hx : x ≠ '\n')
    (h : Text.Denotes inside vs) : ∃ ws, Text.Denotes ('\\' :: x :: inside) ws := by
  by_cases hescape : x ∈ ['n', 't', 'r', '\\', Text.doubleQuote, '0']
  · have hall : ∀ x ∈ ['n', 't', 'r', '\\', Text.doubleQuote, '0'],
        ∃ y, (x, y) ∈ [('n', '\n'), ('t', '\t'), ('r', '\r'), ('\\', '\\'),
          (Text.doubleQuote, Text.doubleQuote), ('0', '\x00')] := by
      simp [Text.doubleQuote]
    obtain ⟨y, hy⟩ := hall x hescape
    exact ⟨_, .escape hy h⟩
  · exact ⟨_, .unknown hescape hx h⟩

/-- What is scanned as the inside of a string literal stands for a text. -/
theorem exists_denotes_of_stringBody? (h : stringBody? cs = some n) :
    ∃ inside value, cs.take n = inside ++ [Text.doubleQuote] ∧ Text.Denotes inside value := by
  induction cs using stringBody?.induct generalizing n with
  | case1 => cases h
  | case2 cs => simp [stringBody?] at h
  | case3 d cs hd ih =>
      rw [stringBody?, if_neg hd] at h
      obtain ⟨k, hk, rfl⟩ := Option.map_eq_some_iff.mp h
      obtain ⟨inside, value, htake, hdenotes⟩ := ih hk
      obtain ⟨ws, hws⟩ := exists_denotes_backslash hd hdenotes
      exact ⟨_, ws, by rw [List.take_succ_cons, List.take_succ_cons, htake]; rfl, hws⟩
  | case4 cs _ =>
      rw [stringBody?_cons (by decide), if_pos rfl] at h
      cases h
      exact ⟨[], [], rfl, .nil⟩
  | case5 c cs hlast hquote hc =>
      rcases hc with rfl | rfl
      · cases cs with
        | nil => simp [stringBody?, Text.doubleQuote] at h
        | cons d ds => exact (hlast d ds rfl rfl).elim
      · simp [stringBody?_cons (c := '\n') (by decide), Text.doubleQuote] at h
  | case6 c cs _ hquote hc ih =>
      rw [not_or] at hc
      rw [stringBody?_cons hc.1, if_neg hquote, if_neg hc.2] at h
      obtain ⟨k, hk, rfl⟩ := Option.map_eq_some_iff.mp h
      obtain ⟨inside, value, htake, hdenotes⟩ := ih hk
      exact ⟨_, _, by rw [List.take_succ_cons, htake]; rfl, .plain ⟨hquote, hc.1, hc.2⟩ hdenotes⟩

/-- What the parser makes of a string literal is what it stands for. -/
theorem standsFor_string (h : string? (w ++ rest) = some w.length) :
    StandsFor .string w (.str (String.ofList (Text.unescape (Grammar.stringInside w)))) := by
  obtain ⟨xs, m, hw, hm, hlength⟩ := exists_of_string? h
  obtain ⟨inside, value, htake, hdenotes⟩ := exists_denotes_of_stringBody? hm
  have heq : w = enquoted inside := by
    calc w = (w ++ rest).take w.length := List.take_left.symm
      _ = enquoted inside := by rw [hw, hlength, List.take_succ_cons, htake]; rfl
  have hinside : Grammar.stringInside (enquoted inside) = inside := by
    rw [Grammar.stringInside, enquoted, List.drop_one, List.tail_cons, List.dropLast_concat]
  rw [heq, hinside, hdenotes.unescape_eq]
  exact .string hdenotes

end Lexeme

/-! ### Lexemes in the text -/

namespace Grammar

open Ember.Tree (Label lexemes lexemesAll)
open Lexeme (StandsFor)

variable {α β : Type} {b c c' : Cursor} {ls ms xs ys : List Label} {l : Label} {w : List Char}

/-- The label is that of a lexeme that the cursor stands at. -/
structure LabelAt (l : Label) (c : Cursor) (w : List Char) : Prop where
  text : w <+: c.rest
  span : l.span = some (c.span (String.ofList w))
  value : StandsFor l.kind w l.value

/-- Between the two cursors the lexemes of the labels stand one after the other. -/
inductive Spelled (b : Cursor) : List Label → Cursor → Prop where
  | start : Spelled b [] b
  | move {ls : List Label} {c : Cursor} (h : Spelled b ls c) (n : Nat) : Spelled b ls (c.advance n)
  | lexeme {ls : List Label} {c : Cursor} {l : Label} {w : List Char} (h : Spelled b ls c)
      (hl : LabelAt l c w) : Spelled b (ls ++ [l]) (c.advance w.length)

namespace Spelled

/-- Some of the labels may be dropped. -/
theorem sublist (h : Spelled b ls c) (hms : ms.Sublist ls) : Spelled b ms c := by
  induction h generalizing ms with
  | start => exact List.sublist_nil.mp hms ▸ .start
  | move _ n ih => exact (ih hms).move n
  | @lexeme ls c l w _ hl ih =>
      obtain ⟨ms₁, ms₂, rfl, hms₁, hms₂⟩ := List.sublist_append_iff.mp hms
      rcases List.sublist_singleton.mp hms₂ with rfl | rfl
      · rw [List.append_nil]
        exact (ih hms₁).move w.length
      · exact (ih hms₁).lexeme hl

/-- Skipping passes no lexeme that is shown. -/
theorem skip (h : Spelled b ls c) : Spelled b ls c.skip := (h.move _).move _

end Spelled

/-- If the outcome is a success, it shows lexemes that stand one after the other. -/
def Outcome.Spells (o : Outcome α) (b : Cursor) (f : α → List Label) : Prop :=
  ∀ a c, o = .ok a c → Spelled b (f a) c

/-- The parser goes on after the lexemes `xs`, and what it gives shows the lexemes `f`. -/
def Parser.Spells (p : Parser α) (xs : List Label) (f : α → List Label) : Prop :=
  ∀ b ls c, Spelled b (ls ++ xs) c → (p c).Spells b fun a => ls ++ f a

/-- What the parser gives shows the lexemes `f`. -/
def Parser.Adds (p : Parser α) (f : α → List Label) : Prop := p.Spells [] f

/-- What the parser gives shows no lexemes. -/
def Parser.Idle (p : Parser α) : Prop := p.Adds fun _ => []

namespace Outcome

variable {o o' : Outcome α} {f : α → List Label}

theorem spells_fail (e : Failure) : (fail e : Outcome α).Spells b f := fun _ _ h => by cases h

theorem spells_stop (s : Stop) : (stop s : Outcome α).Spells b f := fun _ _ h => by cases h

/-- Of two outcomes one is the success. -/
theorem Spells.or (h : o.Spells b f) (h' : o'.Spells b f) : (o.or o').Spells b f := by
  intro a c ha
  rcases or_eq_ok.mp ha with ha | ⟨-, ha⟩
  · exact h a c ha
  · exact h' a c ha

/-- The names of failures do not matter to a success. -/
theorem Spells.relabel (h : o.Spells b f) (start : Nat) (label : Cause) :
    (o.relabel start label).Spells b f := fun a c ha => h a c (relabel_eq_ok.mp ha)

end Outcome

/-! ### Combinators -/

variable {p : Parser α} {f g : α → List Label} {k : β → List Label}

/-- What is shown comes after what has been met before. -/
theorem Parser.Adds.spells (h : p.Adds f) (hc : Spelled b ls c) :
    (p c).Spells b fun a => ls ++ f a := h b ls c (by rwa [List.append_nil])

/-- What has been met before stays before. -/
theorem Parser.Spells.frame (h : p.Spells xs f) (ys : List Label) :
    p.Spells (ys ++ xs) fun a => ys ++ f a := by
  intro b ls c hc a c' ha
  rw [← List.append_assoc] at hc
  have hends : Spelled b (ls ++ ys ++ f a) c' := h b (ls ++ ys) c hc a c' ha
  rwa [List.append_assoc] at hends

/-- So it does where lexemes have been handed over. -/
theorem Parser.Adds.after (h : p.Adds f) (xs : List Label) : p.Spells xs fun a => xs ++ f a := by
  have hframe := h.frame xs
  rwa [List.append_nil] at hframe

/-- Lexemes may be dropped when something is put together. -/
theorem spells_pure {a : α} (h : (f a).Sublist xs) : (pure a : Parser α).Spells xs f := by
  rintro b ls c hc a' c' ⟨⟩
  exact hc.sublist ((List.Sublist.refl ls).append h)

/-- They may be dropped afterwards, too. -/
theorem Parser.Spells.mono (h : p.Spells xs f) (hg : ∀ a, (g a).Sublist (f a)) :
    p.Spells xs g := fun b ls c hc a c' ha =>
  (h b ls c hc a c' ha).sublist ((List.Sublist.refl ls).append (hg a))

/-- Two parsers one after the other: the second one goes on after what the first one shows. -/
theorem Parser.Spells.bind {q : α → Parser β} (h : p.Spells xs f)
    (hq : ∀ a, (q a).Spells (f a) k) : (p >>= q).Spells xs k := by
  intro b ls c hc r c' hr
  obtain ⟨a, d, ha, hr⟩ := bind_eq_ok.mp hr
  exact hq a b ls d (h b ls c hc a d ha) r c' hr

/-- The same where the first one starts anew. -/
theorem Parser.Adds.bind {q : α → Parser β} (h : p.Adds f)
    (hq : ∀ a, (q a).Spells (xs ++ f a) k) : (p >>= q).Spells xs k := (h.after xs).bind hq

/-- The same where the first one shows nothing. -/
theorem Parser.Idle.andThen {q : α → Parser β} (h : p.Idle) (hq : ∀ a, (q a).Spells xs k) :
    (p >>= q).Spells xs k := h.bind fun a => by rw [List.append_nil]; exact hq a

/-- Either choice shows the same. -/
theorem spells_ite {P : Prop} [Decidable P] {q : Parser α} (hp : P → p.Spells xs f)
    (hq : ¬ P → q.Spells xs f) : (if P then p else q).Spells xs f := by
  split
  · exact hp ‹_›
  · exact hq ‹_›

/-- It does not matter to a success whether failures are final. -/
theorem Parser.Spells.cut (h : p.Spells xs f) : p.cut.Spells xs f := by
  intro b ls c hc a c' ha
  refine h b ls c hc a c' ?_
  unfold Parser.cut at ha
  cases hp : p c with
  | ok a' d => rwa [hp] at ha
  | fail e => rw [hp] at ha; cases ha
  | stop s => rw [hp] at ha; cases ha

/-- What may be left out shows its lexemes if it is there. -/
theorem Parser.Adds.optional (h : p.Adds f) : p.optional.Adds fun o => o.toList.flatMap f := by
  intro b ls c hc o c' ho
  unfold Parser.optional at ho
  split at ho
  · rename_i a _ ha
    cases ho
    have hends : Spelled b (ls ++ f a) c' := h b ls c hc a c' ha
    rwa [← List.flatMap_singleton f a] at hends
  · cases ho
    exact hc
  · cases ho

theorem Parser.Idle.optional (h : p.Idle) : p.optional.Idle :=
  (Parser.Adds.optional h).mono fun _ => by simp

/-- All alternatives show what they read. -/
theorem spells_firstOf {ps : List (Parser α)} (h : ∀ p ∈ ps, p.Spells xs f) :
    (firstOf ps).Spells xs f := by
  intro b ls c hc a c' ha
  obtain ⟨p, hp, ha⟩ := firstOf_eq_ok ha
  exact h p hp b ls c hc a c' ha

/-- Alternatives under a name, which start with skipping. -/
theorem adds_choice {ps : List (Parser α)} (label : Cause) (h : ∀ p ∈ ps, p.Adds f) :
    (choice label ps).Adds f := by
  intro b ls c hc a c' ha
  obtain ⟨p, hp, ha⟩ := choice_eq_ok ha
  exact h p hp b ls c.skip hc.skip a c' ha

/-- A step that adds lexemes may be made any number of times. -/
theorem spells_iterate {step : α → Parser α} (hstep : ∀ a, (step a).Spells (f a) f)
    (rounds : List Char) (a : α) : (iterate step rounds a).Spells (f a) f := by
  induction rounds generalizing a with
  | nil => exact spells_pure (List.Sublist.refl _)
  | cons x rounds ih =>
      intro b ls c hc a' c' ha
      rw [iterate] at ha
      dsimp only at ha
      split at ha
      · exact ih _ b ls _ (hstep a b ls c hc _ _ (by assumption)) a' c' ha
      · cases ha
        exact hc
      · cases ha

/-- So it may as long as it succeeds. -/
theorem spells_repeatedly {step : α → Parser α} (hstep : ∀ a, (step a).Spells (f a) f) (a : α) :
    (repeatedly step a).Spells (f a) f := fun b ls c => spells_iterate hstep c.rest a b ls c

/-! ### Tokens -/

/-- The token comes next after a cursor, and the text goes on right after it. -/
structure Token.From (t : Token) (c c' : Cursor) : Prop where
  start : ∃ j, t.start = c.advance j
  text : t.text <+: t.start.rest
  rest : c' = t.start.advance t.text.length

/-- The parser gives the token that comes next, and its text satisfies `P`. -/
def Parser.Finds (p : Parser Token) (P : List Char → Prop) : Prop :=
  ∀ c t c', p c = .ok t c' → t.From c c' ∧ P t.text

/-- The label of a node that shows a token. -/
def Token.label (t : Token) (kind : Tree.Kind) (value : Datum) : Label :=
  ⟨kind, value, some (t.start.span t.string)⟩

/-- A leaf shows its token. -/
theorem lexemes_leaf {t : Token} {kind : Tree.Kind} {value : Datum} (h : kind.isLexeme) :
    lexemes (t.leaf kind value) = [t.label kind value] := Tree.lexemes_leaf h

variable {p : Parser Token} {P : List Char → Prop}

/-- A token need not be shown. -/
theorem Parser.Finds.idle (h : p.Finds P) : p.Idle := by
  intro b ls c hc t c' ht
  obtain ⟨⟨⟨j, hj⟩, -, rfl⟩, -⟩ := h c t c' ht
  rw [hj]
  exact (hc.move j).move _

/-- A token may be shown by a label, if it stands for its value. -/
theorem Parser.Finds.adds (h : p.Finds P) (kind : Tree.Kind) (value : List Char → Datum)
    (hP : ∀ w, P w → StandsFor kind w (value w)) :
    p.Adds fun t => [t.label kind (value t.text)] := by
  intro b ls c hc t c' ht
  obtain ⟨⟨⟨j, hj⟩, htext, rfl⟩, htP⟩ := h c t c' ht
  rw [List.append_nil] at hc
  have hat : LabelAt (t.label kind (value t.text)) t.start t.text := ⟨htext, rfl, hP _ htP⟩
  exact Spelled.lexeme (hj ▸ hc.move j) hat

/-- The token shows a lexeme, and what comes then knows its text. -/
theorem Parser.Finds.bind {q : Token → Parser β} (h : p.Finds P) (kind : Tree.Kind)
    (value : List Char → Datum) (hP : ∀ w, P w → StandsFor kind w (value w))
    (hq : ∀ t, P t.text → (q t).Spells (xs ++ [t.label kind (value t.text)]) k) :
    (p >>= q).Spells xs k := by
  intro b ls c hc r c' hr
  obtain ⟨t, d, ht, hr⟩ := bind_eq_ok.mp hr
  have htP : P t.text := (h c t d ht).2
  exact hq t htP b ls d ((h.adds kind value hP).after xs b ls c hc t d ht) r c' hr

/-- A leaf shows the token that it consists of. -/
theorem spells_leaf {t : Token} {kind : Tree.Kind} {value : Datum} (h : kind.isLexeme) :
    (pure (t.leaf kind value) : Parser Tree).Spells ([] ++ [t.label kind value]) lexemes :=
  spells_pure (by rw [lexemes_leaf h, List.nil_append])

/-- A lexeme that ends within the text is a token there. -/
theorem Token.from_take {t : Token} {d : Cursor} {j n : Nat} (hd : d = c.advance j)
    (hn : n ≤ d.rest.length) (h : Token.take d n = .ok t c') : t.From c c' := by
  obtain ⟨rfl, rfl⟩ := take_eq_ok.mp h
  refine ⟨⟨j, hd⟩, List.take_prefix n _, ?_⟩
  rw [List.length_take, Nat.min_eq_left hn]

theorem exists_skip_eq_advance (c : Cursor) : ∃ j, c.skip = c.advance j :=
  ⟨_, Cursor.advance_advance c _ _⟩

theorem exists_skipInLine_eq_advance (c : Cursor) : ∃ j, c.skipInLine = c.advance j :=
  ⟨_, Cursor.advance_advance c _ _⟩

/-- A lexeme of a class. -/
theorem finds_lexeme {size? : List Char → Option Nat} {cause : Cause}
    (hle : ∀ {cs n}, size? cs = some n → n ≤ cs.length) :
    (lexeme size? cause).Finds fun w => ∃ rest, size? (w ++ rest) = some w.length := by
  intro c t c' ht
  obtain ⟨n, hn, htake⟩ := lexeme_eq_ok.mp ht
  obtain ⟨j, hj⟩ := exists_skip_eq_advance c
  refine ⟨Token.from_take hj (hle hn) htake, c.skip.rest.drop n, ?_⟩
  obtain ⟨rfl, -⟩ := take_eq_ok.mp htake
  rw [List.take_append_drop, hn, List.length_take, Nat.min_eq_left (hle hn)]

/-- A token that is spelled out. -/
theorem Token.from_spelled {t : Token} {d : Cursor} {j : Nat} {text : String}
    (hd : d = c.advance j) (htext : ∃ ds, d.rest = text.toList ++ ds)
    (h : Token.take d text.length = .ok t c') : t.From c c' ∧ t.text = text.toList := by
  obtain ⟨ds, hds⟩ := htext
  have hlength : text.length = text.toList.length := String.length_toList.symm
  refine ⟨Token.from_take hd (by rw [hds, hlength, List.length_append]; omega) h, ?_⟩
  obtain ⟨rfl, -⟩ := take_eq_ok.mp h
  dsimp only
  rw [hds, hlength, List.take_left]

/-- A text that is spelled out, and what comes after it. -/
theorem exists_of_isPrefixOf {text cs : List Char} (h : text.isPrefixOf cs) :
    ∃ ds, cs = text ++ ds := by
  obtain ⟨ds, hds⟩ := List.isPrefixOf_iff_prefix.mp h
  exact ⟨ds, hds.symm⟩

/-- A mark. -/
theorem finds_symbol (text : String) : (symbol text).Finds (· = text.toList) := by
  intro c t c' ht
  obtain ⟨htext, htake⟩ := symbol_eq_ok.mp ht
  obtain ⟨j, hj⟩ := exists_skip_eq_advance c
  exact Token.from_spelled hj (exists_of_isPrefixOf htext) htake

/-- A mark that has to stand on the line. -/
theorem finds_symbolInLine (text : String) : (symbolInLine text).Finds (· = text.toList) := by
  intro c t c' ht
  obtain ⟨htext, htake⟩ := symbolInLine_eq_ok.mp ht
  obtain ⟨j, hj⟩ := exists_skipInLine_eq_advance c
  exact Token.from_spelled hj (exists_of_isPrefixOf htext) htake

/-- A keyword. -/
theorem finds_keyword (word : String) : (keyword word).Finds (· = word.toList) := by
  intro c t c' ht
  obtain ⟨htext, -, htake⟩ := keyword_eq_ok ht
  obtain ⟨j, hj⟩ := exists_skip_eq_advance c
  exact Token.from_spelled hj (exists_of_isPrefixOf htext) htake

/-- A binary operator, which has to stand on the line. -/
theorem finds_operator (ops : List String) :
    (operator ops).Finds fun w => ∃ op ∈ ops, w = op.toList := by
  intro c t c' ht
  obtain ⟨op, hop, htake⟩ := operator_eq_ok.mp ht
  obtain ⟨hmem, htext⟩ := operatorAt?_some hop
  obtain ⟨j, hj⟩ := exists_skipInLine_eq_advance c
  obtain ⟨hfrom, heq⟩ := Token.from_spelled hj htext htake
  exact ⟨hfrom, op, hmem, heq⟩

/-- A prefix operator, which may start a line. -/
theorem finds_prefixOperator (ops : List String) :
    (prefixOperator ops).Finds fun w => ∃ op ∈ ops, w = op.toList := by
  intro c t c' ht
  obtain ⟨op, hop, htake⟩ := prefixOperator_eq_ok.mp ht
  obtain ⟨hmem, htext⟩ := operatorAt?_some hop
  obtain ⟨j, hj⟩ := exists_skip_eq_advance c
  obtain ⟨hfrom, heq⟩ := Token.from_spelled hj htext htake
  exact ⟨hfrom, op, hmem, heq⟩

/-- A name that is no keyword. -/
theorem finds_name : (name .read).Finds fun w => Lexeme.IsName (String.ofList w) := by
  intro c t c' ht
  obtain ⟨n, hn, htake, -⟩ := name_eq_ok ht
  obtain ⟨j, hj⟩ := exists_skip_eq_advance c
  exact ⟨Token.from_take hj (Lexeme.name?_le hn) htake, yields_name c t c' ht⟩

end Grammar

end Ember

import Ember.Parse
import Ember.Proofs.Grammar.Abreast.Statement
import Ember.Proofs.Grammar.Success

/-!
# Grammar — texts one after the other

A text that can be read as a program is read the same way when other programs stand on the lines
after it. Texts without comments that are programs one by one are a program together, with the
statements of all of them.

* `Unclaimed`: what comes next is none of the statements that have a word or a mark of their own.
* `statement_fails_at_end`: no statement is found where the text is over.
* `Row`: statements follow each other from one cursor to another.
* `parseProgram_eq_ok`: what a text without comments has to be to have trees.
* `parseProgram_joined`: texts joined by newlines.
-/

namespace Ember.Grammar

open Cursor (isSpace Uncommented Prolongs)
open Lexeme

variable {mode : Mode} {c c' c'' d e : Cursor} {n : Nat} {inner : Nest} {w : List Char} {t : Tree}
  {ts us : List Tree}

/-! ### The end of the text -/

/-- At the end of the text there is no operand, -/
theorem unaryFrom_fails_at_end (h : Cursor.At [] c) {plain : Outcome Tree} (hplain : plain.Fails) :
    (unaryFrom inner mode plain c).Fails := by
  refine Outcome.Fails.relabel (.or (bind_fails ?_) hplain) _ _
  exact prefixOperator_fails h (by simp)

/-- nothing to be probed, -/
theorem probeFrom_fails {leaf : Outcome Tree} (h : leaf.Fails) (ls : List (List String)) :
    (probeFrom inner ls leaf c).Fails := by
  induction ls with
  | nil => exact h
  | cons ops ls ih =>
      obtain ⟨f, hf⟩ := ih
      simp only [probeFrom, hf]
      exact ⟨_, rfl⟩

/-- nothing to be read, -/
theorem readFrom_fails {probed leaf : Outcome Tree} (hprobed : probed.Fails) (h : leaf.Fails)
    (ls : List (List String)) : (readFrom inner ls probed leaf c).Fails := by
  induction ls with
  | nil => exact h
  | cons ops ls ih =>
      have hprobe : (probeFrom inner ls probed c).Fails := probeFrom_fails hprobed ls
      obtain ⟨f, hf⟩ := hprobe
      obtain ⟨g, hg⟩ := ih
      simp only [readFrom, hf, hg]
      exact ⟨_, rfl⟩

/-- and so no expression. -/
theorem expressionFrom_fails_at_end (h : Cursor.At [] c) {plain : Outcome Tree}
    (hplain : plain.Fails) : (expressionFrom inner mode plain c).Fails := by
  cases mode with
  | probe => exact probeFrom_fails (unaryFrom_fails_at_end h hplain) levels
  | read =>
      have hprobed : (unary inner .probe c).Fails :=
        unaryFrom_fails_at_end h.at (bind_fails (primary_fails h.at (by simp)))
      exact readFrom_fails hprobed (unaryFrom_fails_at_end h hplain) levels

/-- Where the text is over no expression is found. -/
theorem expression_fails_at_end (h : Cursor.At [] c) : (expression inner mode c).Fails :=
  expressionFrom_fails_at_end h.at (bind_fails (primary_fails h.at (by simp)))

/-- Neither a word nor a mark of a statement comes next, and no function with a name does. -/
structure Unclaimed (mode : Mode) (c : Cursor) : Prop where
  word : ∀ w ∈ commands, ¬ WordAt w c.skip.rest
  function : ∀ t d, keyword "fun" c = .ok t d → (name mode d).Fails
  brace : c.skip.rest.head? ≠ some '\x7b'

/-- A mark that is no brace starts no statement with a word of its own. -/
theorem unclaimed_of_mark
    (h : ∀ x ∈ c.skip.rest.head?, Text.isNameStart x = false ∧ x ≠ '\x7b') : Unclaimed mode c := by
  have hword : ∀ w, ¬ WordAt w c.skip.rest := by
    intro w
    cases hrest : c.skip.rest with
    | nil => exact fun hw => by cases hw.size
    | cons x xs => exact not_wordAt_of_not_isNameStart (h x (by simp [hrest])).1 w xs
  refine ⟨fun w _ => hword w, fun t d hfun => ?_, fun heq => (h _ heq).2 rfl⟩
  obtain ⟨f, hf⟩ := keyword_fails_of_not_wordAt (isWord_of_mem_keywords (by decide)) (hword "fun")
  cases hfun.symm.trans hf

/-- Looking for a keyword never stops the parse. -/
theorem keyword_ne_stop {word : String} (r : Stop) : keyword word c ≠ .stop r := by
  intro h
  simp only [keyword, Token.take] at h
  repeat' split at h
  all_goals cases h

/-- Statements that have a mark or a word of their own are not read where none of these stands. -/
theorem Unclaimed.commandStatements_fail (h : Unclaimed mode c) :
    (firstOf (commandStatements (nest (n + 1)) mode) c).Fails := by
  have hkeyword : ∀ word ∈ commands, (keyword word c).Fails := fun word hword =>
    keyword_fails_of_not_wordAt (isWord_of_mem_commands hword) (h.word word hword)
  have hfunction : (functionDef (nest (n + 1)) mode c).Fails := by
    cases hfun : keyword "fun" c with
    | ok t d =>
        obtain ⟨f, hf⟩ := h.function t d hfun
        simp only [functionDef, bind_eq, Parser.bind, hfun, hf]
        exact ⟨_, rfl⟩
    | fail f => exact bind_fails ⟨f, hfun⟩
    | stop s => exact absurd hfun (keyword_ne_stop s)
  have hreturn : bareReturn? c.skip.rest = none := by
    by_contra hsome
    obtain ⟨n, hn⟩ := Option.ne_none_iff_exists'.mp hsome
    obtain ⟨ds, hds, -, hname, -⟩ := exists_of_bareReturn? hn
    refine h.word "return" (by decide) ?_
    rw [hds]
    exact wordAt_append (isWord_of_mem_keywords (by decide)) hname
  have hbrace : (symbol "\x7b" c).Fails := by
    refine lexeme_fails rfl (if_neg fun hspelled => ?_)
    obtain ⟨ds, hds⟩ := (isPrefixOf_singleton _).mp hspelled
    exact h.brace (by rw [hds]; rfl)
  refine firstOf_fails ?_
  simp only [commandStatements, wordStatements, List.cons_append, List.nil_append,
    List.mem_cons, List.not_mem_nil, or_false, forall_eq_or_imp, forall_eq]
  exact ⟨bind_fails (hkeyword "let" (by decide)), hfunction,
    bind_fails (hkeyword "if" (by decide)), bind_fails (hkeyword "while" (by decide)),
    bind_fails (hkeyword "for" (by decide)), bind_fails (lexeme_fails rfl hreturn),
    bind_fails (hkeyword "return" (by decide)), bind_fails (bind_fails hbrace)⟩

/-- Where the text is over no statement is found. -/
theorem statement_fails_at_end (hn : 0 < n) (h : Cursor.At [] c) :
    (statement (nest n) mode c).Fails := by
  obtain ⟨m, rfl⟩ : ∃ m, n = m + 1 := Nat.exists_eq_add_one.mpr hn
  have hat : Cursor.At [] c.skip := h.at
  have hcommands : (firstOf (commandStatements (nest (m + 1)) mode) c.skip).Fails :=
    (unclaimed_of_mark (by simp [hat.rest])).commandStatements_fail
  have hplain : (postfixed (nest (m + 1)) mode c.skip).Fails :=
    bind_fails (primary_fails hat (by simp))
  have hexpression : (expressionFrom (nest (m + 1)) mode
      (postfixed (nest (m + 1)) mode c.skip) c.skip).Fails :=
    expressionFrom_fails_at_end hat hplain
  refine bind_fails ?_
  obtain ⟨f, hf⟩ := hcommands
  obtain ⟨g, hg⟩ := hplain
  obtain ⟨k, hk⟩ := hexpression
  simp only [commandStatements, wordStatements, List.cons_append, List.nil_append] at hf
  rw [hg] at hk
  simp only [bareStatement, hf, hg, assignFrom, expressionStatementFrom, hk]
  exact ⟨_, rfl⟩

/-! ### Statements in a row -/

/-- The end of the text is a break. -/
theorem break_nil : Break [] := ⟨.inl rfl, .inl fun _ h => (nomatch h)⟩

/-- A statement that is read starts with a token of its own. -/
theorem consumes_statement (hc : Uncommented c.rest)
    (h : statement (nest n) .read c = .ok t c') :
    Consumes .read c.rest c'.rest ∧ Uncommented c'.rest := by
  have habreast : Outcome.Abreast [] (Consumes .read c.rest) (Broken c.rest) Tree.Alike
      (statement (nest n) .read c) (statement (nest n) .read c) :=
    abreast_statement break_nil (calm_nest break_nil n) (.refl hc)
  rw [h] at habreast
  cases habreast with
  | ok _ hcd hrest => exact ⟨hrest, hcd.left⟩
  | lost hw _ => exact (hw rfl).elim

/-- Statements follow each other from one cursor to another. -/
inductive Row (n : Nat) : Cursor → List Tree → Cursor → Prop where
  | nil (c : Cursor) : Row n c [] c
  | cons {c c₁ c' : Cursor} {t : Tree} {ts : List Tree}
      (ht : statement (nest n) .read c = .ok t c₁) (hts : Row n c₁ ts c') :
      Row n c (t :: ts) c'

namespace Row

/-- Two rows one after the other. -/
theorem append (h : Row n c ts c') (h' : Row n c' us c'') : Row n c (ts ++ us) c'' := by
  induction h with
  | nil c => exact h'
  | cons ht _ ih => exact .cons ht (ih h')

/-- A row is a passage, with a character at least for each statement. -/
theorem passage (h : Row n c ts c') (hc : Uncommented c.rest) :
    Passage .read c.rest c'.rest ∧ ts.length ≤ c.rest.length := by
  induction h with
  | nil c => exact ⟨.refl _ _, Nat.zero_le _⟩
  | cons ht _ ih =>
      obtain ⟨hrest, hc₁⟩ := consumes_statement hc ht
      obtain ⟨hpassage, hlength⟩ := ih hc₁
      refine ⟨hrest.toPassage.trans hpassage, ?_⟩
      have hshorter := hrest.shorter
      rw [List.length_cons]
      omega

/-- A text that is read to its end lacks nothing. -/
theorem not_doomed (h : Row n c ts c') (hc : Uncommented c.rest) (hend : Blank c'.rest) :
    ¬ Doomed c.rest := fun hdoomed =>
  hend.not_doomed ((h.passage hc).1.doomed rfl hdoomed)

/-- A text that is read to its end does not go on with a statement before it. -/
theorem begins (h : Row n c ts c') (hc : Uncommented c.rest) (hend : Blank c'.rest) :
    Blank c.rest ∨ Begins .read c.rest := by
  cases h with
  | nil => exact .inl hend
  | cons ht _ => exact .inr (consumes_statement hc ht).1.begins

/-- A text that is read to its end is read as well with more text after it. -/
theorem prolong (hw : Break w) (h : Row n c ts c') (hend : Blank c'.rest)
    (hcd : Prolongs w c d) :
    ∃ us d', Row n d us d' ∧ List.Forall₂ Tree.Alike ts us ∧ Prolongs w c' d' := by
  induction h generalizing d with
  | nil c => exact ⟨[], d, .nil d, .nil, hcd⟩
  | @cons c c₁ c' t ts ht hts ih =>
      have hdoomed : ¬ Doomed c.rest := (Row.cons ht hts).not_doomed hcd.left hend
      have habreast : Outcome.Abreast w (Consumes .read c.rest) (Broken c.rest) Tree.Alike
          (statement (nest n) .read c) (statement (nest n) .read d) :=
        abreast_statement hw (calm_nest hw n) hcd
      generalize hd : statement (nest n) .read d = o at habreast
      rw [ht] at habreast
      cases habreast with
      | ok ht' hcd₁ _ =>
          obtain ⟨us, d', hus, halike, hcd'⟩ := ih hend hcd₁
          exact ⟨_, d', .cons hd hus, .cons ht' halike, hcd'⟩
      | lost _ hbroken =>
          rcases hbroken with hbroken | ⟨-, hmisses⟩
          · exact (hdoomed hbroken).elim
          · exact (hmisses _ _ rfl).elim

/-- Where the next token is the same, so is what is read, unless nothing is. -/
theorem of_skip_eq (h : Row n c ts c') (hskip : d.skip = c.skip) (hne : ts ≠ []) :
    Row n d ts c' := by
  cases h with
  | nil => exact (hne rfl).elim
  | @cons c c₁ c' t ts ht hts =>
      refine .cons ?_ hts
      rw [← ht]
      simp only [statement, bareStatement, bind_eq, Parser.bind, hskip]

end Row

/-! ### Two texts -/

/-- Blank space does not matter to where the next token is. -/
theorem skip_advance_blank {b cs : List Char} (h : c.rest = b ++ cs) (hb : Blank b)
    (hc : Uncommented c.rest) : c.skip = (c.advance b.length).skip := by
  have hrest : (c.advance b.length).rest = cs := (Cursor.advance_append h).1
  have hquiet : Uncommented (c.advance b.length).rest :=
    hc.suffix (by rw [hrest, h]; exact List.suffix_append b cs)
  rw [Cursor.skip_of_quiet hc.quiet, Cursor.skip_of_quiet hquiet.quiet, Cursor.advance_advance,
    hrest, h, List.takeWhile_append_of_pos hb, List.length_append]

/-- After a newline a text goes on as at its start. -/
theorem prolongs_start {b cs : List Char} (filename : String) (h : c.rest = b ++ '\n' :: cs)
    (hc : Uncommented c.rest) :
    Prolongs [] (.start filename cs) (c.advance (b.length + 1)) := by
  have hline : (c.advance b.length).rest = '\n' :: cs := (Cursor.advance_append h).1
  have hnext : c.advance (b.length + 1) = (c.advance b.length).next := by
    rw [← Cursor.advance_advance]
    rfl
  have hcs : Uncommented cs :=
    hc.suffix (by rw [h]; exact (List.suffix_cons _ _).trans (List.suffix_append _ _))
  have hrest : (c.advance (b.length + 1)).rest = cs := by rw [hnext, Cursor.next, hline]
  refine ⟨?_, ?_, ?_, hcs, by rwa [hrest]⟩
  · rw [hrest, Cursor.start, List.append_nil]
  · rw [hnext, Cursor.next, hline]
    rfl
  · rw [hnext, Cursor.next, hline]
    rfl

/-- Two texts that are read to their ends are read together, one below the other. -/
theorem Row.join {f g k : String} {as bs : List Char} {a b : Cursor}
    (hts : Row n (.start f as) ts a) (ha : Blank a.rest)
    (hus : Row n (.start g bs) us b) (hb : Blank b.rest) (has : Uncommented as)
    (hplain : Uncommented (as ++ '\n' :: bs)) :
    ∃ vs e, Row n (.start k (as ++ '\n' :: bs)) vs e ∧ Blank e.rest ∧
      List.Forall₂ Tree.Alike (ts ++ us) vs := by
  have hbs : Uncommented bs :=
    hplain.suffix ((List.suffix_cons _ _).trans (List.suffix_append _ _))
  have hline : ('\n' :: bs).dropWhile isSpace = bs.dropWhile isSpace := rfl
  have hw : Break ('\n' :: bs) := by
    refine ⟨.inr ⟨bs, rfl⟩, (hus.begins hbs hb).imp (fun h => ?_) fun h => ?_⟩
    · rw [blank_iff, hline]
      exact blank_iff.mp h
    · rw [Begins, hline]
      exact h
  have hcd : Prolongs ('\n' :: bs) (.start f as) (.start k (as ++ '\n' :: bs)) :=
    ⟨rfl, rfl, rfl, has, hplain⟩
  obtain ⟨ts', d, hts', halike, had⟩ := hts.prolong hw ha hcd
  have hde := prolongs_start g had.rest had.right
  obtain ⟨us', e, hus', halike', hbe⟩ := hus.prolong break_nil hb hde
  have hsplit : d.rest = (a.rest ++ ['\n']) ++ bs := by
    rw [had.rest, List.append_assoc, List.singleton_append]
  have hblank : Blank (a.rest ++ ['\n']) :=
    List.forall_mem_append.mpr ⟨ha, List.forall_mem_singleton.mpr rfl⟩
  have hskip : d.skip = (d.advance (a.rest.length + 1)).skip := by
    rw [skip_advance_blank hsplit hblank had.right, List.length_append, List.length_singleton]
  refine ⟨ts' ++ us', ?_⟩
  by_cases hnil : us' = []
  · -- nothing is read after the newline, so the second text is blank
    subst hnil
    cases halike'
    cases hus
    refine ⟨d, ?_, ?_, List.rel_append halike .nil⟩
    · rwa [List.append_nil]
    · rw [hsplit]
      exact List.forall_mem_append.mpr ⟨hblank, hb⟩
  · refine ⟨e, hts'.append (hus'.of_skip_eq hskip hnil), ?_, List.rel_append halike halike'⟩
    rw [hbe.rest, List.append_nil]
    exact hb

/-! ### Whole texts -/

/-- Finds one statement more. -/
def grow (n : Nat) (ss : List Tree) : Parser (List Tree) := do
  let s ← statement (nest n) .read
  pure (s :: ss)

/-- What a repetition has read is a row. -/
theorem exists_row_of_iterate {rounds : List Char} {acc ss : List Tree}
    (h : iterate (grow n) rounds acc c = .ok ss c') :
    ∃ ts, ss = ts.reverse ++ acc ∧ Row n c ts c' := by
  induction rounds generalizing acc c with
  | nil =>
      cases h
      exact ⟨[], rfl, .nil _⟩
  | cons x rounds ih =>
      cases ht : statement (nest n) .read c with
      | ok t c₁ =>
          simp only [iterate, grow, bind_eq, Parser.bind, ht] at h
          obtain ⟨ts, rfl, hts⟩ := ih h
          exact ⟨t :: ts, by simp, .cons ht hts⟩
      | fail f =>
          simp only [iterate, grow, bind_eq, Parser.bind, ht] at h
          cases h
          exact ⟨[], rfl, .nil _⟩
      | stop s =>
          simp only [iterate, grow, bind_eq, Parser.bind, ht] at h
          cases h

/-- A row that goes to the end of the text is what a repetition reads. -/
theorem Row.iterate (hn : 0 < n) (h : Row n c ts c') (hend : Cursor.At [] c') {rounds : List Char}
    (hrounds : ts.length ≤ rounds.length) (acc : List Tree) :
    iterate (grow n) rounds acc c = .ok (ts.reverse ++ acc) c' := by
  induction h generalizing rounds acc with
  | nil c =>
      cases rounds with
      | nil => rfl
      | cons x rounds =>
          obtain ⟨f, hf⟩ : (statement (nest n) .read c).Fails := statement_fails_at_end hn hend
          simp only [Grammar.iterate, grow, bind_eq, Parser.bind, hf]
          rfl
  | @cons c c₁ c' t ts ht hts ih =>
      cases rounds with
      | nil => simp at hrounds
      | cons x rounds =>
          have hgrow : grow n acc c = .ok (t :: acc) c₁ := by
            rw [grow, bind_eq, Parser.bind, ht]
            rfl
          simp only [Grammar.iterate, hgrow]
          rw [ih hend (by simpa using hrounds), List.reverse_cons, List.append_assoc,
            List.singleton_append]

/-- The text is over where there is only blank space. -/
theorem endOfText_iff_blank (hc : Uncommented c.rest) :
    (∃ c', endOfText c = .ok () c') ↔ Blank c.rest := by
  simp only [endOfText_eq_ok, blank_iff, Cursor.skip_rest hc.quiet, exists_and_left, exists_eq,
    and_true]

/-- Statements leave no comments behind where there were none. -/
theorem Row.uncommented (h : Row n c ts c') (hc : Uncommented c.rest) : Uncommented c'.rest :=
  hc.suffix (h.passage hc).1.scan.suffix

/-- Statements are read by repetition, and come out in order. -/
theorem statements_eq_ok :
    statements (nest n) .read c = .ok ts c' ↔ iterate (grow n) c.rest [] c = .ok ts.reverse c' := by
  change Parser.bind (repeatedly (grow n) []) (fun ss => pure ss.reverse) c = _ ↔ _
  rw [Parser.bind, repeatedly]
  cases iterate (grow n) c.rest [] c with
  | ok ss c₁ =>
      change Outcome.ok ss.reverse c₁ = _ ↔ _
      rw [Outcome.ok.injEq, Outcome.ok.injEq, List.reverse_eq_iff]
  | fail f => simp
  | stop s => simp

/-- A text without comments has the trees of its statements, if nothing is left after them. -/
theorem program_eq_ok (hc : Uncommented c.rest) :
    (∃ c', program c = .ok ts c') ↔ ∃ c', Row maxDepth c ts c' ∧ Blank c'.rest := by
  constructor
  · rintro ⟨c'', h⟩
    obtain ⟨ss, c₁, hs, h⟩ := bind_eq_ok.mp h
    obtain ⟨⟨⟩, c₂, hend, h⟩ := bind_eq_ok.mp h
    cases h
    obtain ⟨ts, hss, hrow⟩ := exists_row_of_iterate (statements_eq_ok.mp hs)
    rw [List.append_nil, List.reverse_inj] at hss
    subst hss
    exact ⟨c₁, hrow, (endOfText_iff_blank (hrow.uncommented hc)).mp ⟨_, hend⟩⟩
  · rintro ⟨c', hts, hend⟩
    have hs : statements (nest maxDepth) .read c = .ok ts c' := by
      rw [statements_eq_ok, hts.iterate (by decide) (at_nil hend) (hts.passage hc).2,
        List.append_nil]
    obtain ⟨c'', hover⟩ := (endOfText_iff_blank (hts.uncommented hc)).mpr hend
    exact ⟨c'', bind_eq_ok.mpr ⟨ts, c', hs, bind_eq_ok.mpr ⟨(), c'', hover, rfl⟩⟩⟩

end Ember.Grammar

namespace Ember

open Cursor (Uncommented commentLength?)

/-! ### Texts without comments -/

/-- Tab stops are counted anew in each line. -/
theorem Text.expandTabsFrom_append_newline (column : Nat) (as bs : List Char) :
    expandTabsFrom column (as ++ '\n' :: bs)
      = expandTabsFrom column as ++ '\n' :: expandTabs bs := by
  induction as generalizing column with
  | nil => rfl
  | cons x xs ih =>
      rw [List.cons_append, expandTabsFrom, expandTabsFrom]
      split
      · dsimp only
        rw [ih, List.append_assoc]
      · split
        · rw [ih, List.cons_append]
        · rw [ih, List.cons_append]

/-- So lines are scanned by themselves. -/
theorem scanned_newline (a b : String) :
    scanned (a ++ "\n" ++ b) = scanned a ++ '\n' :: scanned b := by
  rw [scanned, String.toList_append, String.toList_append, List.append_assoc]
  exact Text.expandTabsFrom_append_newline 0 a.toList b.toList

theorem Cursor.uncommented_cons {x : Char} {xs : List Char} :
    Uncommented (x :: xs) ↔ commentLength? (x :: xs) = none ∧ Uncommented xs := by
  simp only [Uncommented, List.suffix_cons_iff, forall_eq_or_imp]

/-- A slash starts a comment only with another slash or a star after it. -/
theorem Cursor.commentLength?_eq_none {x : Char} {xs : List Char}
    (h : x = '/' → xs.head? ≠ some '/' ∧ xs.head? ≠ some '*') :
    commentLength? (x :: xs) = none := by
  rw [commentLength?]
  · rintro ys hcons
    cases hcons
    exact (h rfl).1 rfl
  · rintro ys hcons
    cases hcons
    exact (h rfl).2 rfl

/-- Spaces start no comment. -/
theorem Cursor.uncommented_spaces {xs : List Char} (k : Nat) (h : Uncommented xs) :
    Uncommented (List.replicate k ' ' ++ xs) := by
  induction k with
  | zero => exact h
  | succ k ih => exact uncommented_cons.mpr ⟨rfl, ih⟩

/-- No mark of a comment occurs in the text. -/
def Text.Commentless (cs : List Char) : Prop :=
  occursIn ['/', '/'] cs = false ∧ occursIn ['/', '*'] cs = false

instance (cs : List Char) : Decidable (Text.Commentless cs) := inferInstanceAs (Decidable (_ ∧ _))

/-- A text has no comment if none starts at its first character or later. -/
theorem Text.commentless_cons {x : Char} {xs : List Char} :
    Commentless (x :: xs) ↔
      (x = '/' → xs.head? ≠ some '/' ∧ xs.head? ≠ some '*') ∧ Commentless xs := by
  cases xs with
  | nil => simp [Commentless, occursIn, List.isPrefixOf]
  | cons y ys =>
      simp [Commentless, occursIn]
      grind

/-- No comment starts across the end of a line. -/
theorem Text.Commentless.append_newline {as bs : List Char} (ha : Commentless as)
    (hb : Commentless bs) : Commentless (as ++ '\n' :: bs) := by
  induction as with
  | nil => exact commentless_cons.mpr ⟨by simp, hb⟩
  | cons x xs ih =>
      obtain ⟨hx, hxs⟩ := commentless_cons.mp ha
      refine commentless_cons.mpr ⟨fun heq => ?_, ih hxs⟩
      cases xs with
      | nil => simp
      | cons y ys => exact hx heq

/-- A text keeps its first character unless that is a tab. -/
theorem Text.head?_expandTabsFrom (column : Nat) (cs : List Char) :
    (expandTabsFrom column cs).head? = cs.head? ∨ (expandTabsFrom column cs).head? = some ' ' := by
  cases cs with
  | nil => exact .inl rfl
  | cons x xs =>
      rw [expandTabsFrom]
      split
      · have hgap : 0 < tabWidth - column % tabWidth :=
          Nat.sub_pos_of_lt (Nat.mod_lt _ (by decide))
        obtain ⟨k, hk⟩ := Nat.exists_eq_add_one.mpr hgap
        exact .inr (by simp [hk, List.replicate_succ])
      · split <;> exact .inl rfl

/-- The spaces that replace tabs make no comment. -/
theorem Text.Commentless.uncommented {cs : List Char} (h : Commentless cs) (column : Nat) :
    Uncommented (expandTabsFrom column cs) := by
  induction cs generalizing column with
  | nil =>
      intro ds hds
      rw [List.suffix_nil.mp hds]
      rfl
  | cons x xs ih =>
      obtain ⟨hx, hxs⟩ := commentless_cons.mp h
      have hcons (k : Nat) : Uncommented (x :: expandTabsFrom k xs) := by
        refine Cursor.uncommented_cons.mpr ⟨Cursor.commentLength?_eq_none fun heq => ?_, ih hxs k⟩
        rcases head?_expandTabsFrom k xs with hhead | hhead
        · rw [hhead]
          exact hx heq
        · rw [hhead]
          decide
      rw [expandTabsFrom]
      split
      · exact Cursor.uncommented_spaces _ (ih hxs _)
      · split
        · exact hcons 0
        · exact hcons (column + 1)

/-! ### Joined texts -/

theorem parseProgram_eq_ok {filename source : String} {ts : List Tree}
    (h : Text.Commentless source.toList) :
    parseProgram filename source = .ok ts ↔
      ∃ c, Grammar.Row Grammar.maxDepth (.start filename (scanned source)) ts c ∧
        Lexeme.Blank c.rest := by
  have hc : Uncommented (Cursor.start filename (scanned source)).rest := h.uncommented 0
  rw [← Grammar.program_eq_ok hc, parseProgram, parseWith]
  dsimp only
  split
  · simp_all
  · simp_all
  · simp_all
  · simp_all
  · simp_all

/-- The name of the file is told by the places of the trees only. -/
theorem parseProgram_renamed {f source : String} {ts : List Tree}
    (hplain : Text.Commentless source.toList) (h : parseProgram f source = .ok ts) (g : String) :
    ∃ us, parseProgram g source = .ok us ∧ us.map Tree.unlined = ts.map Tree.unlined := by
  obtain ⟨c, hrow, hend⟩ := (parseProgram_eq_ok hplain).mp h
  have hc : Uncommented (scanned source) := hplain.uncommented 0
  have hstart : Cursor.Prolongs [] (.start f (scanned source)) (.start g (scanned source)) :=
    ⟨(List.append_nil _).symm, rfl, rfl, hc, hc⟩
  obtain ⟨us, d, hus, halike, hcd⟩ := hrow.prolong Grammar.break_nil hend hstart
  refine ⟨us, (parseProgram_eq_ok hplain).mpr ⟨d, hus, ?_⟩, (Tree.map_unlined halike).symm⟩
  rw [hcd.rest, List.append_nil]
  exact hend

/-- Two texts that can be read are read together, one below the other. -/
theorem parseProgram_newline {f g a b : String} {ts us : List Tree}
    (ha : Text.Commentless a.toList) (hb : Text.Commentless b.toList)
    (hts : parseProgram f a = .ok ts) (hus : parseProgram g b = .ok us) (k : String) :
    Text.Commentless (a ++ "\n" ++ b).toList ∧
      ∃ vs, parseProgram k (a ++ "\n" ++ b) = .ok vs ∧
        vs.map Tree.unlined = (ts ++ us).map Tree.unlined := by
  have hplain : Text.Commentless (a ++ "\n" ++ b).toList := by
    rw [String.toList_append, String.toList_append, List.append_assoc]
    exact ha.append_newline hb
  have hscanned : Uncommented (scanned a ++ '\n' :: scanned b) :=
    scanned_newline a b ▸ hplain.uncommented 0
  obtain ⟨c, hrow, hend⟩ := (parseProgram_eq_ok ha).mp hts
  obtain ⟨d, hrow', hend'⟩ := (parseProgram_eq_ok hb).mp hus
  obtain ⟨vs, e, hvs, hover, halike⟩ :=
    hrow.join hend hrow' hend' (ha.uncommented 0) hscanned
  refine ⟨hplain, vs, (parseProgram_eq_ok hplain).mpr ⟨e, ?_, hover⟩,
    (Tree.map_unlined halike).symm⟩
  rwa [scanned_newline]

/-- **Texts that can be read one by one can be read in one go**, and give the same trees, up to
lines and file names. -/
theorem parseProgram_joined {steps : List (String × String)} {trees : List (List Tree)}
    (h : List.Forall₂ (fun step ts => parseProgram step.1 step.2 = .ok ts) steps trees)
    (hplain : ∀ step ∈ steps, Text.Commentless step.2.toList) (filename : String) :
    Text.Commentless (String.intercalate "\n" (steps.map Prod.snd)).toList ∧
      ∃ ts, parseProgram filename (String.intercalate "\n" (steps.map Prod.snd)) = .ok ts ∧
        ts.map Tree.unlined = trees.flatten.map Tree.unlined := by
  induction h with
  | nil =>
      have hempty : Text.Commentless "".toList := ⟨rfl, rfl⟩
      refine ⟨hempty, [], (parseProgram_eq_ok hempty).mpr ⟨_, .nil _, ?_⟩, rfl⟩
      exact fun x hx => (nomatch hx)
  | @cons step ts steps trees hts hrest ih =>
      obtain ⟨hstep, hsteps⟩ := List.forall_mem_cons.mp hplain
      obtain ⟨hjoined, us, hus, halike⟩ := ih hsteps
      cases hrest with
      | nil =>
          rw [List.map_cons, List.map_nil, String.intercalate_singleton, List.flatten_cons,
            List.flatten_nil, List.append_nil]
          exact ⟨hstep, parseProgram_renamed hstep hts filename⟩
      | cons _ _ =>
          rw [List.map_cons] at hjoined hus ⊢
          rw [List.map_cons, String.intercalate_cons_cons]
          obtain ⟨hplain', vs, hvs, halike'⟩ :=
            parseProgram_newline hstep hjoined hts hus filename
          refine ⟨hplain', vs, hvs, ?_⟩
          rw [halike', List.map_append, halike, ← List.map_append]
          rfl

end Ember

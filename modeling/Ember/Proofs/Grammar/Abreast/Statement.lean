import Ember.Proofs.Grammar.Abreast.Expression

/-!
# Grammar — statements of a text and of a longer one

A statement that is read from a text is read from the longer text as well, and ends at the same
point: the longer text goes on with nothing that could belong to the last statement of the shorter
one.

* `abreast_bareStatement`, `abreast_statement`: a statement.
* `calm_nest`: the parsers of every nesting depth go abreast.
-/

namespace Ember.Grammar

open Cursor (isSpace isInlineSpace Prolongs)
open Lexeme
open Outcome (Abreast)

variable {α : Type} {mode : Mode} {w cs ds : List Char} {c d : Cursor} {n : Nat} {inner : Nest}
  {word : String}

/-! ### Words that start a statement -/

/-- A keyword where the text is not over. -/
theorem abreast_command {L : Outcome Token → Prop} (hw : NewLine w) (hword : word ∈ keywords)
    (hcd : Prolongs w c d) (hne : w ≠ [] → ¬ Blank c.rest) :
    Abreast w (fun ds => WordAt word (c.rest.dropWhile isSpace) ∧
        ds = (c.rest.dropWhile isSpace).drop word.length)
      L Token.Alike (keyword word c) (keyword word d) :=
  (abreast_keyword hw (isWord_of_mem_keywords hword) hcd).lose fun hw ho => (hne hw ho.blank).elim

/-- What has to follow a passage, or else the parse stops. -/
theorem abreast_cut {Q : List Char → Prop} {r : α → α → Prop} {p : Parser α}
    (hpassage : Passage mode cs c.rest) (h : Abreast w Q (Astray c.rest) r (p c) (p d)) :
    Abreast w Q (Halted cs) r (p.cut c) (p.cut d) :=
  h.cut fun _ ho => (hpassage.broken ho).cut

/-- The mark of a mutable binding is passed. -/
theorem passage_mutMark (h : mutMark? (cs.dropWhile isSpace) = some n) :
    Passage mode cs ((cs.dropWhile isSpace).drop n) := by
  obtain ⟨ds, hds, rfl, hends⟩ := exists_of_word? h
  have hword : IsWord "mut" := ⟨_, _, rfl, by decide, forall_of_all (by decide)⟩
  have hmark : Passage mode ('@' :: ("mut".toList ++ ds)) ("mut".toList ++ ds) :=
    passage_mark (by decide) (by decide)
  have hcs : cs.dropWhile isSpace = '@' :: ("mut".toList ++ ds) := by simpa using hds
  have hskip : Passage mode cs ('@' :: ("mut".toList ++ ds)) := hcs ▸ passage_skip cs
  rw [hcs]
  exact (hskip.trans hmark).trans (passage_word (wordAt_append hword hends) (by decide))

/-- The sign of an assignment needs a value after it. -/
theorem pending_assignSign (h : assignSign? (cs.dropWhile isSpace) = some n) :
    Pending mode (¬ Blank ·) cs ((cs.dropWhile isSpace).drop n) := by
  obtain ⟨ds, hds, rfl⟩ := exists_of_assignSign? h
  refine (passage_skip cs).pending ?_
  rw [hds]
  exact pending_operatorChar (by decide)

/-- The sign of an assignment needs an expression after it. -/
theorem abreast_assignSign (hw : NewLine w) (mode : Mode) (hcd : Prolongs w c d) :
    Abreast w (Pending mode (¬ Blank ·) c.rest) (Over c.rest) Token.Alike
      (lexeme assignSign? .assignSign c) (lexeme assignSign? .assignSign d) := by
  refine (abreast_lexeme hcd rfl (assignSign?_append hw.boundary) fun cs n h => ?_).mono ?_
  · obtain ⟨ds, rfl, rfl⟩ := exists_of_assignSign? h
    exact Nat.succ_le_succ (Nat.zero_le _)
  · rintro ds ⟨n, hn, rfl⟩
    exact pending_assignSign hn

/-- The value after the sign of an assignment. -/
theorem abreast_assigned {cs : List Char} {p : Parser Tree} (hp : Steady w mode p)
    (hpending : Pending mode (¬ Blank ·) cs c.rest) (hcd : Prolongs w c d) :
    Abreast w (fun ds => Passage mode cs ds ∧ ds.length < cs.length) (fun _ => Doomed cs) Tree.Alike
      (p c) (p d) := by
  refine ((hp c d hcd).mono fun ds hds => ?_).lose fun _ ho =>
    hpending.doomed_of_astray (fun hb hmore => hmore hb) ho
  exact ⟨(hpending.passage hds.begins.not_blank).trans hds.toPassage,
    Nat.lt_trans hds.shorter hpending.shorter⟩

/-- Where what may be left out is not there, what comes after may still be lacking. -/
theorem optional_bind_misses {β : Type} {p : Parser α} {f : Option α → Parser β}
    (hp : (p c).Fails) (hf : (f none c).Misses) : ((p.optional >>= f) c).Misses := by
  obtain ⟨e, he⟩ := hp
  rw [bind_eq, Parser.bind, Parser.optional, he]
  exact hf

/-- A binding that lacks something stops the parse. -/
theorem abreast_letStatement (hw : NewLine w) (h : inner.Calm w) (hcd : Prolongs w c d)
    (hne : w ≠ [] → ¬ Blank c.rest) :
    Abreast w (Consumes mode c.rest) (Halted c.rest) Tree.Alike
      (letStatement inner mode c) (letStatement inner mode d) := by
  refine (abreast_command (L := fun _ => False) hw (by decide) hcd hne).bind (fun _ h => h.elim)
    fun t t' c₁ d₁ _ ht hcd₁ hrest => ?_
  have hlet : Consumes mode c.rest c₁.rest := hrest.2 ▸ consumes_word hrest.1 (by decide)
  refine Abreast.cut (L := Broken c.rest) ?_ fun _ ho => ho.cut
  have hmark : Abreast w (Consumes mode c.rest) (fun _ => Blank c₁.rest) (Option.Rel Token.Alike)
      ((lexeme mutMark? (.construct "mark")).optional c₁)
      ((lexeme mutMark? (.construct "mark")).optional d₁) := by
    refine (abreast_lexeme hcd₁ rfl
      (fun _ => word?_append hw.boundary (forall_of_all (by decide)) _)
      fun cs n h => word?_le h).optional hcd₁ ?_ hlet fun _ ho => ho.blank
    rintro ds ⟨n, hn, rfl⟩
    exact hlet.trans (passage_mutMark hn)
  refine hmark.bind (fun _ hblank => .inr ⟨?_, ?_⟩) fun m m' c₂ d₂ _ hm hcd₂ hlet₂ => ?_
  · rw [hlet.balance, hblank.balance]
  · have hat := at_nil hblank
    refine optional_bind_misses (lexeme_fails hat.rest rfl) ?_
    exact (bind_fails (name_fails mode hat (by simp))).passes.misses
  refine (abreast_name hw hcd₂).bind (fun _ ho => (hlet₂.broken (.inr ho)).bind)
    fun x x' c₃ d₃ _ hx hcd₃ hname => ?_
  have hlet₃ := hlet₂.trans hname.toPassage
  refine (abreast_assignSign hw mode hcd₃).bind
    (fun _ ho => (hlet₃.broken (.inr ho)).bind) fun _ _ c₄ d₄ _ _ hcd₄ hpending => ?_
  refine (abreast_assigned (steady_expression hw h mode) hpending hcd₄).bind
    (fun _ ho => .inl (.of_scan hlet₃.scan ho)) fun e e' c₅ d₅ _ he hcd₅ hvalue => ?_
  have hsome : m.isSome = m'.isSome := by cases hm <;> rfl
  rw [hx.string, hsome]
  exact .ok (ht.nodeAt (.cons he .nil)) hcd₅ (hlet₃.trans hvalue.1)

/-- A function does so only at its body; without a name it may still be an expression. -/
theorem abreast_functionDef (hw : NewLine w) (h : inner.Calm w) (hcd : Prolongs w c d)
    (hne : w ≠ [] → ¬ Blank c.rest) :
    Abreast w (Consumes mode c.rest) (Halted c.rest) Tree.Alike
      (functionDef inner mode c) (functionDef inner mode d) := by
  refine (abreast_command (L := fun _ => False) hw (by decide) hcd hne).bind (fun _ h => h.elim)
    fun t t' c₁ d₁ _ ht hcd₁ hrest => ?_
  have hpending : Pending mode ('\x7b' ∈ ·) c.rest c₁.rest := hrest.2 ▸ pending_fun hrest.1
  refine (abreast_name hw hcd₁).bind
    (fun _ ho => .inl (hpending.doomed_of_astray (fun hb => hb.not_brace) (.inr ho)))
    fun x x' c₂ d₂ _ hx hcd₂ hname => ?_
  have hpending₂ := hpending.trans hname.toPassage hname.brace
  refine (abreast_parameters hw hcd₂).bind
    (fun _ ho => .inl (hpending₂.doomed_of_astray (fun hb => hb.not_brace) ho))
    fun ps ps' c₃ d₃ _ hps hcd₃ hparams => ?_
  have hpending₃ := hpending₂.trans hparams.toPassage hparams.brace
  have hblock : Abreast w (Consumes mode c₃.rest) (fun _ => Doomed c.rest) Tree.Alike
      ((inner.block mode).cut c₃) ((inner.block mode).cut d₃) :=
    (h.block mode c₃ d₃ hcd₃).cut fun _ ho =>
      hpending₃.doomed_of_astray (fun hb => hb.not_brace) ho
  refine hblock.bind (fun _ h => .inl h) fun b b' c₄ d₄ hok hb hcd₄ hbody => ?_
  have hpassage := hpending₃.passage (h.brace mode c₃ b c₄ hcd₃.left (Outcome.ok_of_cut hok))
  rw [hx.string, hps]
  exact .ok (ht.nodeAt (.cons hb .nil)) hcd₄ ⟨hpassage.trans hbody.toPassage,
    begins_of_word hrest.1 (by decide), Nat.lt_trans hbody.shorter hpending₃.shorter⟩

/-! ### Conditionals and loops -/

/-- The condition of a statement and its block. -/
theorem abreast_whileStatement (hw : NewLine w) (h : inner.Calm w) (hcd : Prolongs w c d)
    (hne : w ≠ [] → ¬ Blank c.rest) :
    Abreast w (Consumes mode c.rest) (Halted c.rest) Tree.Alike
      (whileStatement inner mode c) (whileStatement inner mode d) := by
  refine (abreast_command (L := fun _ => False) hw (by decide) hcd hne).bind (fun _ h => h.elim)
    fun t t' c₁ d₁ _ ht hcd₁ hrest => ?_
  have hwhile : Consumes mode c.rest c₁.rest := hrest.2 ▸ consumes_word hrest.1 (by decide)
  refine (abreast_cut hwhile.toPassage (steady_expression hw h mode c₁ d₁ hcd₁)).bind
    (fun _ ho => ho.bind) fun e e' c₂ d₂ _ he hcd₂ hcondition => ?_
  have hwhile₂ := hwhile.trans hcondition.toPassage
  refine (abreast_cut hwhile₂.toPassage (h.block mode c₂ d₂ hcd₂)).bind (fun _ ho => ho.bind)
    fun b b' c₃ d₃ _ hb hcd₃ hbody => ?_
  exact .ok (ht.nodeAt (.cons he (.cons hb .nil))) hcd₃ (hwhile₂.trans hbody.toPassage)

/-- A loop over an array that lacks something stops the parse. -/
theorem abreast_forStatement (hw : NewLine w) (h : inner.Calm w) (hcd : Prolongs w c d)
    (hne : w ≠ [] → ¬ Blank c.rest) :
    Abreast w (Consumes mode c.rest) (Halted c.rest) Tree.Alike
      (forStatement inner mode c) (forStatement inner mode d) := by
  refine (abreast_command (L := fun _ => False) hw (by decide) hcd hne).bind (fun _ h => h.elim)
    fun t t' c₁ d₁ _ ht hcd₁ hrest => ?_
  have hfor : Consumes mode c.rest c₁.rest := hrest.2 ▸ consumes_word hrest.1 (by decide)
  refine Abreast.cut (L := Broken c.rest) ?_ fun _ ho => ho.cut
  refine (abreast_name hw hcd₁).bind (fun _ ho => (hfor.broken (.inr ho)).bind)
    fun x x' c₂ d₂ _ hx hcd₂ hname => ?_
  have hfor₂ := hfor.trans hname.toPassage
  refine (abreast_keyword hw (isWord_of_mem_keywords (by decide)) hcd₂).bind
    (fun _ ho => (hfor₂.broken (.inr ho)).bind) fun _ _ c₃ d₃ _ _ hcd₃ hin => ?_
  have hword : Consumes mode c₂.rest c₃.rest := hin.2 ▸ consumes_word hin.1 (by decide)
  have hfor₃ := hfor₂.trans hword.toPassage
  refine (steady_expression hw h mode c₃ d₃ hcd₃).bind (fun _ ho => (hfor₃.broken ho).bind)
    fun e e' c₄ d₄ _ he hcd₄ hiterable => ?_
  have hfor₄ := hfor₃.trans hiterable.toPassage
  refine (h.block mode c₄ d₄ hcd₄).bind (fun _ ho => (hfor₄.broken ho).bind)
    fun b b' c₅ d₅ _ hb hcd₅ hbody => ?_
  rw [hx.string]
  exact .ok (ht.nodeAt (.cons he (.cons hb .nil))) hcd₅ (hfor₄.trans hbody.toPassage)

/-! ### What a new line does not start with -/

/-- Where the shorter text is over, the longer one is skipped to its new lines. -/
theorem skip_rest_beyond (hcd : Prolongs w c d) (hblank : Blank c.rest) :
    d.skip.rest = w.dropWhile isSpace := by
  rw [Cursor.skip_rest hcd.right.quiet, hcd.rest, List.dropWhile_append_of_pos hblank]

/-- The new lines do not start with `else`, -/
theorem Break.not_else (hw : Break w) : ¬ WordAt "else" (w.dropWhile isSpace) := by
  rcases hw.begins with hblank | ⟨x, xs, hx, -, -, helse⟩
  · rw [blank_iff.mp hblank]
    intro h
    cases h.size
  · rw [hx]
    exact helse rfl

/-- nor with a semicolon or the sign of an assignment. -/
theorem Break.head (hw : Break w) : ∀ x ∈ (w.dropWhile isSpace).head?, x ≠ ';' ∧ x ≠ '=' := by
  rcases hw.begins with hblank | ⟨x, xs, hx, hsemicolon, hequal, -⟩
  · simp [blank_iff.mp hblank]
  · simp [hx, hsemicolon, hequal]

/-- Where the word is not there, a keyword is not read. -/
theorem keyword_fails_of_not_wordAt (hword : IsWord word) (h : ¬ WordAt word c.skip.rest) :
    (keyword word c).Fails := by
  simp only [keyword]
  split
  · rename_i hspelled
    split
    · exact ⟨_, rfl⟩
    · split
      · exact ⟨_, rfl⟩
      · rename_i hstarts
        obtain ⟨ds, hds⟩ := List.isPrefixOf_iff_prefix.mp hspelled
        rw [← hds, ← String.length_toList, List.drop_left] at hstarts
        rw [← hds] at h
        exact (h (wordAt_append hword (endsName_of_startsWord (by simpa using hstarts)))).elim
  · exact ⟨_, rfl⟩

/-- No `else` stands on the next line. -/
theorem abreast_else {L : Outcome Token → Prop} (hw : Break w) (mode : Mode)
    (hcd : Prolongs w c d) :
    Abreast w (Passage mode c.rest) L Token.Alike (keyword "else" c) (keyword "else" d) := by
  have hword : IsWord "else" := isWord_of_mem_keywords (by decide)
  refine ((abreast_keyword hw.newline hword hcd).resolve fun _ ho => ?_).mono fun ds hds => ?_
  · refine .of_fails (keyword_fails_at_mark hword (at_nil ho.blank) (by simp)) ?_
    exact keyword_fails_of_not_wordAt hword (skip_rest_beyond hcd ho.blank ▸ hw.not_else)
  · exact hds.2 ▸ (passage_skip c.rest).trans (passage_word hds.1 (by decide))

/-- No semicolon stands on the next line. -/
theorem abreast_semicolon {L : Outcome (Option Token) → Prop} (hw : Break w) (mode : Mode)
    (hcd : Prolongs w c d) :
    Abreast w (Passage mode c.rest) L (Option.Rel Token.Alike) ((symbol ";").optional c)
      ((symbol ";").optional d) := by
  have hsymbol : Abreast w (Passage mode c.rest) (fun _ => False) Token.Alike (symbol ";" c)
      (symbol ";" d) := by
    refine ((abreast_symbol hw.newline (x := ';') rfl (by decide) hcd).resolve
      fun _ ho => ?_).mono fun ds hds => ?_
    · refine .of_fails (symbol_fails (x := ';') rfl (at_nil ho.blank) (by simp))
        (lexeme_fails (skip_rest_beyond hcd ho.blank) ?_)
      rw [if_neg]
      intro hspelled
      obtain ⟨ds, hds⟩ := (isPrefixOf_singleton (x := ';') _).mp hspelled
      exact (hw.head ';' (by simp [hds])).1 rfl
    · have hskip : Passage mode c.rest (';' :: ds) := hds ▸ passage_skip c.rest
      exact hskip.trans (passage_mark (by decide) (by decide))
  exact hsymbol.optional hcd (fun _ h => h) (.refl _ _) fun _ h => h.elim

/-- No sign of an assignment stands on the next line. -/
theorem abreast_assignSignHere {L : Outcome Token → Prop} (hw : Break w) (mode : Mode)
    (hcd : Prolongs w c d) :
    Abreast w (Pending mode (¬ Blank ·) c.rest) L Token.Alike
      (lexeme assignSign? .assignSign c) (lexeme assignSign? .assignSign d) := by
  refine (abreast_assignSign hw.newline mode hcd).resolve fun _ ho => ?_
  refine .of_fails (lexeme_fails (at_nil ho.blank).rest rfl)
    (lexeme_fails (skip_rest_beyond hcd ho.blank) ?_)
  have hhead := hw.head
  cases hes : w.dropWhile isSpace with
  | nil => rfl
  | cons x xs =>
      rw [hes] at hhead
      have hx := (hhead x rfl).2
      simp [assignSign?, hx]

/-! ### Conditionals -/

/-- At the end of the text there is no conditional. -/
theorem nest_conditional_passes (h : Cursor.At [] c) : ((nest n).conditional mode c).Passes := by
  cases n with
  | zero => exact Outcome.passes_tooDeep
  | succ m =>
      rw [nest, enclose_conditional]
      unfold ifStatement
      exact (bind_fails (keyword_fails_at_mark (isWord_of_mem_keywords (by decide)) h
        (by simp))).passes

/-- `else` is passed only if a branch follows. -/
theorem abreast_elseBranch (hw : Break w) (h : (nest n).Calm w) (hcd : Prolongs w c d) :
    Abreast w (Passage mode c.rest) (Halted c.rest) Tree.Alike
      (elseBranch (nest n) mode c) (elseBranch (nest n) mode d) := by
  refine (abreast_else (L := fun _ => False) hw mode hcd).bind (fun _ h => h.elim)
    fun _ _ c₁ d₁ _ _ hcd₁ hpassage => ?_
  by_cases hover : w ≠ [] ∧ Blank c₁.rest
  · -- something has to follow `else`
    have hat := (at_nil hover.2).at
    have hmisses :
        (choice .elseBranch [(nest n).conditional mode, (nest n).block mode] c₁).Misses :=
      ((firstOf_passes (by
        simp only [List.mem_cons, List.not_mem_nil, or_false, forall_eq_or_imp, forall_eq]
        exact ⟨nest_conditional_passes hat, nest_block_passes hat (by simp)⟩)).relabel _ _).misses
    exact .lost hover.1 (hpassage.broken (.inr ⟨hover.2, hmisses⟩)).cut
  · have hne : w ≠ [] → ¬ Blank c₁.rest := fun hw hblank => hover ⟨hw, hblank⟩
    obtain ⟨hcd', hne'⟩ := prolongs_skip hcd₁ hne
    have hskip : Passage mode c.rest c₁.skip.rest :=
      Cursor.skip_rest hcd₁.left.quiet ▸ hpassage.trans (passage_skip c₁.rest)
    have hbranch : Abreast w (Consumes mode c₁.skip.rest) (Halted c₁.skip.rest) Tree.Alike
        (firstOf [(nest n).conditional mode, (nest n).block mode] c₁.skip)
        (firstOf [(nest n).conditional mode, (nest n).block mode] d₁.skip) :=
      abreast_firstOf (lasting_halted _) (h.conditional mode _ _ hcd' hne') fun _ =>
        ((h.block mode).doomed hcd' hne').lose fun _ h => .inl h
    refine Abreast.cut (L := Halted c.rest) ?_ fun _ ho => ho.cut
    refine Abreast.relabel (L := Halted c.rest) ?_ _ _ _ _ fun _ ho => ho.relabel _ _
    exact (hbranch.mono fun ds hds => hskip.trans hds.toPassage).lose fun _ ho => hskip.halted ho

/-- A conditional has its second branch before the break or not at all. -/
theorem abreast_ifStatement (hw : Break w) (h : (nest n).Calm w) (hcd : Prolongs w c d)
    (hne : w ≠ [] → ¬ Blank c.rest) :
    Abreast w (Consumes mode c.rest) (Halted c.rest) Tree.Alike
      (ifStatement (nest n) mode c) (ifStatement (nest n) mode d) := by
  refine (abreast_command (L := fun _ => False) hw.newline (by decide) hcd hne).bind
    (fun _ h => h.elim) fun t t' c₁ d₁ _ ht hcd₁ hrest => ?_
  have hif : Consumes mode c.rest c₁.rest := hrest.2 ▸ consumes_word hrest.1 (by decide)
  refine (abreast_cut hif.toPassage (steady_expression hw.newline h mode c₁ d₁ hcd₁)).bind
    (fun _ ho => ho.bind) fun e e' c₂ d₂ _ he hcd₂ hcondition => ?_
  have hif₂ := hif.trans hcondition.toPassage
  refine (abreast_cut hif₂.toPassage (h.block mode c₂ d₂ hcd₂)).bind (fun _ ho => ho.bind)
    fun b b' c₃ d₃ _ hb hcd₃ hyes => ?_
  have hif₃ := hif₂.trans hyes.toPassage
  have helse : Abreast w (Consumes mode c.rest) (Halted c.rest) (Option.Rel Tree.Alike)
      ((elseBranch (nest n) mode).optional c₃) ((elseBranch (nest n) mode).optional d₃) :=
    (abreast_elseBranch hw h hcd₃).optional hcd₃ (fun _ h => hif₃.trans h) hif₃
      fun _ ho => (hif₃.halted ho).optional
  refine helse.bind (fun _ ho => ho.bind) fun no no' c₄ d₄ _ hno hcd₄ hif₄ => ?_
  refine .ok (ht.nodeAt (.cons he (.cons hb ?_))) hcd₄ hif₄
  cases hno with
  | none => exact .nil
  | some h => exact .cons h .nil

/-! ### Returns -/

/-- What is read of the word of returns. -/
theorem consumes_return (h : WordAt "return" (cs.dropWhile isSpace))
    (hpassage : Passage mode (cs.dropWhile isSpace) ds)
    (hshorter : ds.length < (cs.dropWhile isSpace).length) : Consumes mode cs ds :=
  Consumes.of_skip ⟨hpassage, begins_skip.mpr (begins_of_word h (by decide)), hshorter⟩

/-- A return without a value ends with its line. -/
theorem abreast_bareReturn (hw : NewLine w) (hcd : Prolongs w c d)
    (hne : w ≠ [] → ¬ Blank c.rest) :
    Abreast w (Consumes mode c.rest) (Halted c.rest) Tree.Alike (bareReturn c) (bareReturn d) := by
  rcases bareReturn?_append hw (c.rest.dropWhile isSpace) with hsame | ⟨hnil, hdangling⟩
  · refine (abreast_lexeme hcd rfl (fun _ => hsame) fun cs n h => ?_).bind
      (fun hw ho => (hne hw ho.blank).elim) fun t t' c₁ d₁ _ ht hcd₁ hrest => ?_
    · obtain ⟨ds, rfl, rfl, -⟩ := exists_of_bareReturn? h
      simp
    · obtain ⟨n, hn, hrest⟩ := hrest
      obtain ⟨ds, hds, rfl, hname, hends⟩ := exists_of_bareReturn? hn
      have hword : WordAt "return" (c.rest.dropWhile isSpace) :=
        hds ▸ wordAt_append (isWord_of_mem_keywords (by decide)) hname
      have hdrop : (c.rest.dropWhile isSpace).drop 6 = ds := hds ▸ List.drop_left' rfl
      refine .ok (ht.nodeAt .nil) hcd₁ (consumes_return hword ?_ ?_)
      · rw [hrest]
        exact passage_return hword (hdrop.symm ▸ hends)
      · rw [hrest]
        exact (inert_name hword.size).shorter
  · exact .lost hnil (.inl ⟨_, (passage_skip c.rest : Passage mode _ _).scan, .inr hdangling⟩)

/-- A return that is not read without a value has something after it. -/
theorem not_endsStatement_of_fails (hc : c.skip.rest = cs) (hword : WordAt "return" cs)
    (h : (bareReturn c).Fails) : endsStatement (cs.drop 6) = false := by
  by_contra hends
  have hsize : bareReturn? cs = some 6 := by
    have hspelled : "return".toList.isPrefixOf cs = true :=
      List.isPrefixOf_iff_prefix.mpr hword.text
    have hname : endsName (cs.drop 6) = true := hword.endsName
    have hends' : endsStatement (cs.drop 6) = true := by simpa using hends
    have hsize : word? "return" cs = some 6 := if_pos (by rw [hspelled, Bool.true_and]; exact hname)
    rw [bareReturn?, hsize, Option.bind_some, if_pos hends']
  obtain ⟨f, hf⟩ := h
  simp only [bareReturn, bind_eq, Parser.bind, lexeme, hc, hsize, Token.take] at hf
  cases hf

/-- A return that lacks its value dooms the text. -/
theorem abreast_valueReturn (hw : NewLine w) (h : inner.Calm w) (hcd : Prolongs w c d)
    (hne : w ≠ [] → ¬ Blank c.rest) (hbare : (bareReturn c).Fails) :
    Abreast w (Consumes mode c.rest) (Halted c.rest) Tree.Alike
      (valueReturn inner mode c) (valueReturn inner mode d) := by
  refine (abreast_command (L := fun _ => False) hw (by decide) hcd hne).bind (fun _ h => h.elim)
    fun t t' c₁ d₁ _ ht hcd₁ hrest => ?_
  have hends := not_endsStatement_of_fails (Cursor.skip_rest hcd.left.quiet) hrest.1 hbare
  have hpending : Pending mode (¬ Blank ·) (c.rest.dropWhile isSpace) c₁.rest :=
    hrest.2 ▸ pending_return hrest.1 hends
  refine (abreast_assigned (steady_expression hw h mode) hpending hcd₁).bind
    (fun _ ho => .inl (.of_scan (passage_skip c.rest : Passage mode _ _).scan ho))
    fun e e' c₂ d₂ _ he hcd₂ hvalue => ?_
  exact .ok (ht.nodeAt (.cons he .nil)) hcd₂ (consumes_return hrest.1 hvalue.1 hvalue.2)

/-! ### Other statements -/

/-- A block as a statement is a block. -/
theorem abreast_blockStatement (h : inner.Calm w) (hcd : Prolongs w c d)
    (hne : w ≠ [] → ¬ Blank c.rest) :
    Abreast w (Consumes mode c.rest) (Halted c.rest) Tree.Alike
      (blockStatement inner mode c) (blockStatement inner mode d) :=
  ((h.block mode).doomed hcd hne).bind (fun _ h => .inl h) fun _ _ _ _ _ hb hcd₁ hrest =>
    .ok (Tree.alike_node (.cons hb .nil) hb.span) hcd₁ hrest

/-- Assignments are alike if their targets and values are. -/
theorem alike_assignTree? {start start' : Cursor} {t t' e e' : Tree}
    (hstart : start'.col = start.col) (ht : t.Alike t') (he : e.Alike e') :
    Option.Rel Tree.Alike (assignTree? start t e) (assignTree? start' t' e') := by
  cases t with
  | stray x =>
      cases t' with
      | stray => exact .none
      | node =>
          rw [Tree.Alike, Tree.unlined_node, Tree.unlined] at ht
          cases ht
  | node kind value ts s =>
      obtain ⟨ts', s', rfl, hts, -⟩ := ht.cases
      cases kind with
      | identifier => exact .some (Tree.alike_node (.cons he .nil) (unlined_span hstart _))
      | index =>
          exact .some (Tree.alike_node (List.rel_append hts (.cons he .nil))
            (unlined_span hstart _))
      | _ => exact .none

/-- An assignment does not go on after the break. -/
theorem abreast_assignFrom {target target' : Outcome Tree} (hw : Break w) (h : inner.Calm w)
    (hcd : Prolongs w c d)
    (htarget : Abreast w (Consumes mode c.rest) (fun _ => Doomed c.rest) Tree.Alike
      target target') :
    Abreast w (Consumes mode c.rest) (fun _ => Doomed c.rest) Tree.Alike
      (assignFrom inner mode target c) (assignFrom inner mode target' d) := by
  unfold assignFrom
  cases htarget with
  | ok ht hcd₁ hrest =>
      refine (abreast_assignSignHere (L := fun _ => False) hw mode hcd₁).bind (fun _ h => h.elim)
        fun _ _ c₂ d₂ _ _ hcd₂ hpending => ?_
      refine (abreast_assigned (steady_expression hw.newline h mode) hpending hcd₂).bind
        (fun _ ho => .of_scan hrest.scan ho) fun e e' c₃ d₃ _ he hcd₃ hvalue => ?_
      have hconsumes := hrest.trans hvalue.1
      have htree := alike_assignTree? hcd.col ht he
      generalize assignTree? c _ e = tree at htree ⊢
      generalize assignTree? d _ e' = tree' at htree ⊢
      cases htree with
      | some htree => exact .ok htree hcd₃ hconsumes
      | none =>
          cases mode with
          | probe => exact .ok ht hcd₃ hconsumes
          | read => exact .fail _ _
  | fail f f' => exact .fail f f'
  | fatal f f' => exact .fatal f f'
  | stop s => exact .stop s
  | lost hw h => exact .lost hw h

/-- Nor does an expression. -/
theorem abreast_expressionStatementFrom {plain plain' : Outcome Tree} (hw : NewLine w)
    (h : inner.Calm w) (hcd : Prolongs w c d) (hne : w ≠ [] → ¬ Blank c.rest)
    (hplain : Abreast w (Consumes mode c.rest) (fun _ => Doomed c.rest) Tree.Alike plain plain') :
    Abreast w (Consumes mode c.rest) (fun _ => Doomed c.rest) Tree.Alike
      (expressionStatementFrom inner mode plain c)
      (expressionStatementFrom inner mode plain' d) := by
  have hexpression := abreast_expressionFrom hw h hcd hne hplain
  unfold expressionStatementFrom
  generalize expressionFrom inner mode plain c = o at hexpression
  generalize expressionFrom inner mode plain' d = o' at hexpression
  cases hexpression with
  | ok he hcd₁ hrest =>
      exact .ok (Tree.alike_node (.cons he .nil) (unlined_span hcd.col _)) hcd₁ hrest
  | fail f f' => exact .fail f f'
  | fatal f f' => exact .fatal f f'
  | stop s => exact .stop s
  | lost hw h => exact .lost hw h

/-! ### Statements -/

/-- The statements that start with a keyword or a brace. -/
theorem abreast_commands (hw : Break w) (h : (nest n).Calm w) (mode : Mode)
    (hcd : Prolongs w c d) (hne : w ≠ [] → ¬ Blank c.rest) :
    Abreast w (Consumes mode c.rest) (Halted c.rest) Tree.Alike
      (firstOf (commandStatements (nest n) mode) c)
      (firstOf (commandStatements (nest n) mode) d) := by
  have hL := lasting_halted (α := Tree) c.rest
  refine abreast_firstOf hL (abreast_letStatement hw.newline h hcd hne) fun _ => ?_
  refine abreast_firstOf hL (abreast_functionDef hw.newline h hcd hne) fun _ => ?_
  refine abreast_firstOf hL (abreast_ifStatement hw h hcd hne) fun _ => ?_
  refine abreast_firstOf hL (abreast_whileStatement hw.newline h hcd hne) fun _ => ?_
  refine abreast_firstOf hL (abreast_forStatement hw.newline h hcd hne) fun _ => ?_
  refine abreast_firstOf hL (abreast_bareReturn hw.newline hcd hne) fun hbare => ?_
  refine abreast_firstOf hL (abreast_valueReturn hw.newline h hcd hne hbare) fun _ => ?_
  exact abreast_blockStatement h hcd hne

/-- The statements, one by one; an expression is tried last. -/
theorem abreast_bareStatement (hw : Break w) (h : (nest n).Calm w) (hcd : Prolongs w c d)
    (hne : w ≠ [] → ¬ Blank c.rest) :
    Abreast w (Consumes mode c.rest) (Halted c.rest) Tree.Alike
      (bareStatement (nest n) mode c) (bareStatement (nest n) mode d) := by
  obtain ⟨hcd', hne'⟩ := prolongs_skip hcd hne
  have hskip : Passage mode c.rest c.skip.rest :=
    Cursor.skip_rest hcd.left.quiet ▸ passage_skip c.rest
  have hcommands := abreast_commands hw h mode hcd' hne'
  have hplain := (steady_postfixed hw.newline h mode).doomed hcd' hne'
  have hassign := abreast_assignFrom hw h hcd' hplain
  have hexpression := abreast_expressionStatementFrom hw.newline h hcd' hne' hplain
  suffices hbare : Abreast w (Consumes mode c.skip.rest) (Halted c.skip.rest) Tree.Alike
      (bareStatement (nest n) mode c) (bareStatement (nest n) mode d) by
    refine (hbare.mono fun ds hds => ?_).lose fun _ ho => hskip.halted ho
    exact ⟨hskip.trans hds.toPassage,
      begins_skip.mp (Cursor.skip_rest hcd.left.quiet ▸ hds.begins),
      Nat.lt_of_lt_of_le hds.shorter hskip.length_le⟩
  simp only [commandStatements, wordStatements, List.cons_append, List.nil_append] at hcommands
  simp only [bareStatement]
  generalize firstOf _ c.skip = o at hcommands ⊢
  generalize firstOf _ d.skip = o' at hcommands ⊢
  cases hcommands with
  | ok ht hcd₁ hrest => exact .ok ht hcd₁ hrest
  | fail f f' =>
      dsimp only
      generalize assignFrom (nest n) mode _ c.skip = a at hassign ⊢
      generalize assignFrom (nest n) mode _ d.skip = a' at hassign ⊢
      cases hassign with
      | ok ht hcd₁ hrest => exact .ok ht hcd₁ hrest
      | fail g g' =>
          exact (Abreast.or (lasting_const _) (.fail _ _) fun _ => hexpression).lose
            fun _ h => .inl h
      | fatal g g' => exact .fatal g g'
      | stop s => exact .stop s
      | lost hw h => exact .lost hw (.inl h)
  | fatal f f' => exact .fatal f f'
  | stop s => exact .stop s
  | lost hw h =>
      rcases h with hdoomed | ⟨hzero, s, rfl⟩
      · exact .lost hw (.inl hdoomed)
      · exact .lost hw (.inr ⟨hzero, s, rfl⟩)

/-- A statement that is read from the text is read from the longer text as well. -/
theorem abreast_statement (hw : Break w) (h : (nest n).Calm w) (hcd : Prolongs w c d) :
    Abreast w (Consumes mode c.rest) (Broken c.rest) Tree.Alike
      (statement (nest n) mode c) (statement (nest n) mode d) := by
  by_cases hover : w ≠ [] ∧ Blank c.rest
  · have hmisses : (statement (nest n) mode c).Misses :=
      (statement_passes (at_nil hover.2) (by simp [Ends])).misses
    exact .lost hover.1 (.inr ⟨hover.2.balance, hmisses⟩)
  · have hne : w ≠ [] → ¬ Blank c.rest := fun hw hblank => hover ⟨hw, hblank⟩
    refine (abreast_bareStatement hw h hcd hne).bind (fun _ ho => ho.broken.bind)
      fun t t' c₁ d₁ _ ht hcd₁ hrest => ?_
    exact (abreast_semicolon (L := fun _ => False) hw mode hcd₁).bind (fun _ h => h.elim)
      fun _ _ c₂ d₂ _ _ hcd₂ hrest₂ => .ok ht hcd₂ (hrest.trans hrest₂)

/-! ### Blocks -/

/-- A block that is not closed dooms the text. -/
theorem abreast_block (hw : Break w) (h : (nest n).Calm w) (mode : Mode) :
    Steady w mode (block (nest n) mode) := by
  intro c d hcd
  refine (abreast_symbol hw.newline (x := '\x7b') rfl (by decide) hcd).bind (fun _ h => .inr h.bind)
    fun t t' c₁ d₁ _ ht hcd₁ hrest => ?_
  have hopened : Opened mode c.rest c₁.rest := opened_symbol (by decide) hrest
  have hstatements : Abreast w (Opened mode c.rest) (fun _ => Doomed c.rest)
      (List.Forall₂ Tree.Alike) (statements (nest n) mode c₁) (statements (nest n) mode d₁) := by
    refine (abreast_repeatedly (J := Opened mode c.rest) (P := Doomed c.rest) ?_ ?_ .nil hcd₁
      hopened).bind (fun _ h => h) fun ts ts' c₂ d₂ _ hts hcd₂ hopened₂ =>
        .ok (List.rel_reverse hts) hcd₂ hopened₂
    · intro ts ts' c₂ d₂ hts hcd₂ hopened₂
      refine (abreast_statement hw h hcd₂).bind (fun _ ho => ?_)
        fun s s' c₃ d₃ _ hs hcd₃ hrest₃ => ?_
      · rcases ho with hdoomed | ho
        · exact .of_scan hopened₂.scan hdoomed
        · exact hopened₂.doomed_of_balance ho.1
      · exact .ok (.cons hs hts) hcd₃ ⟨hopened₂.trans hrest₃.toPassage, hrest₃.shorter⟩
    · intro _ _ c₂ d₂ _ hopened₂ hnil
      exact .inr (hopened₂.doomed_of_balance (hnil ▸ balance_nil))
  refine hstatements.bind (fun _ h => .inl h) fun ts ts' c₂ d₂ _ hts hcd₂ hopened₂ => ?_
  have hclose : Abreast w (fun ds => c₂.rest.dropWhile isSpace = '\x7d' :: ds)
      (fun _ => Doomed c.rest) Token.Alike ((symbol "\x7d").cut c₂) ((symbol "\x7d").cut d₂) :=
    (abreast_symbol hw.newline rfl (by decide) hcd₂).cut fun _ ho =>
      hopened₂.doomed_of_astray (.inr ho)
  refine hclose.bind (fun _ h => .inl h) fun _ _ c₃ d₃ _ _ hcd₃ hclosed => ?_
  exact .ok (ht.nodeAt hts) hcd₃
    (hopened₂.consumes hclosed (by decide) (begins_bracket (by decide) hrest))

/-- Where a block is read there is a brace. -/
theorem brace_of_block {t : Tree} {c' : Cursor} (hc : Cursor.Uncommented c.rest)
    (h : block inner mode c = .ok t c') : '\x7b' ∈ c.rest := by
  have hsymbol : Abreast [] (fun ds => c.rest.dropWhile isSpace = '\x7b' :: ds) (Over c.rest)
      Token.Alike (symbol "\x7b" c) (symbol "\x7b" c) :=
    abreast_symbol (.inl rfl) rfl (by decide) (.refl hc)
  rw [block, bind_eq, Parser.bind] at h
  generalize symbol "\x7b" c = o at hsymbol h
  cases hsymbol with
  | ok _ _ hrest => exact (List.dropWhile_suffix _).subset (hrest ▸ List.mem_cons_self)
  | fail f f' => cases h
  | fatal f f' => cases h
  | stop s => cases h
  | lost hw _ => exact (hw rfl).elim

/-- The parsers of every nesting depth go abreast. -/
theorem calm_nest (hw : Break w) (n : Nat) : (nest n).Calm w := by
  induction n with
  | zero =>
      exact ⟨fun _ _ _ _ => .stop _, fun _ _ _ _ => .stop _, fun _ _ _ _ => .stop _,
        fun _ _ _ _ _ h => (nomatch h), fun _ _ _ _ _ => .stop _⟩
  | succ n ih =>
      exact ⟨steady_expression hw.newline ih, steady_unary hw.newline ih, abreast_block hw ih,
        fun _ _ _ _ hc h => brace_of_block hc h,
        fun _ _ _ hcd hne => abreast_ifStatement hw ih hcd hne⟩

end Ember.Grammar

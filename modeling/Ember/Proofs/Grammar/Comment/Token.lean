import Ember.Proofs.Grammar.Abreast.Token
import Ember.Proofs.Grammar.Comment.Agree

/-!
# Grammar — tokens of a text with comments as blank space

Every token that is read from a text is read from the same text with comments as blank space as
well, at the same place.

* `Lexeme.Common`: the texts start with the same lexemes.
* `Lexeme.Shared`: lexemes of a class are the same in both texts.
* `Token.Same`: tokens with the same text at the same place.
* `agree_lexeme`, `agree_operator`, `agree_keyword`, …: each kind of token on both texts.
-/

namespace Ember

namespace Lexeme

open Cursor (isSpace Quiet)

variable {operand : Bool} {before cs ds text rest : List Char} {x : Char} {xs : List Char} {n : Nat}
  {word : String}

/-! ### Lexemes -/

/-- The texts start with the same lexemes and go on alike. If it is so indicated, an operand may end
with the last of the lexemes. -/
structure Common (operand : Bool) (n : Nat) (cs ds : List Char) : Prop where
  take : ds.take n = cs.take n
  rest : ∃ before, (operand → endsOperand before) ∧ Veil before (cs.drop n) (ds.drop n)

/-- What is spelled out is common to both texts. -/
theorem common_append {ds' : List Char} (hbefore : operand → endsOperand before)
    (h : Veil before rest ds') : Common operand text.length (text ++ rest) (text ++ ds') := by
  refine ⟨?_, before, hbefore, ?_⟩
  · rw [List.take_left, List.take_left]
  · rwa [List.drop_left, List.drop_left]

/-- The lexeme that starts a text is the same. -/
theorem Veil.first_lexeme (h : Veil before (x :: xs) ds) (hcs : Settled (x :: xs))
    (hn : size (x :: xs) = n) :
    ds.take n = (x :: xs).take n ∧
      Veil ((x :: xs).take n) ((x :: xs).drop n) (ds.drop n) := by
  obtain ⟨ds', rfl, h'⟩ := h.lexeme_of_quiet hcs.quiet (List.cons_ne_nil x xs)
  have hlength : ((x :: xs).take n).length = n := by
    rw [List.length_take, Nat.min_eq_left (hn ▸ size_le x xs)]
  rw [hn] at h' ⊢
  refine ⟨List.take_left' hlength, ?_⟩
  rwa [List.drop_left' hlength]

/-- A lexeme that is no mark may end an operand. -/
theorem Veil.common (h : Veil before (x :: xs) ds) (hcs : Settled (x :: xs))
    (hn : size (x :: xs) = n) (hx : isMark x = false) : Common true n (x :: xs) ds := by
  obtain ⟨htake, h'⟩ := h.first_lexeme hcs hn
  refine ⟨htake, _, fun _ => ?_, h'⟩
  obtain ⟨k, rfl⟩ := Nat.exists_eq_add_one.mpr (hn ▸ size_pos (x :: xs))
  simp [endsOperand, hx]

/-- Lexemes of the class are the same in both texts. -/
def Shared (operand : Bool) (size? : List Char → Option Nat) : Prop :=
  ∀ before cs ds, Veil before cs ds → Settled cs →
    size? ds = size? cs ∧ ∀ n, size? cs = some n → Common operand n cs ds

/-- A digit is no mark, -/
theorem not_isMark_of_isDigit (hx : Text.isDigit x) : isMark x = false := by simp [isMark, hx]

/-- and neither is what a name starts with. -/
theorem not_isMark_of_isNameStart (hx : Text.isNameStart x) : isMark x = false := by
  simp [isMark, hx]

/-- Numbers are shared, and may end an operand. -/
theorem shared_number : Shared true number? := by
  intro before cs ds h hcs
  refine ⟨h.agree hcs fun p w _ hw => number?_append hw p, fun n hn => ?_⟩
  cases cs with
  | nil => cases hn
  | cons x xs =>
      refine h.common hcs (size_of_number hn) (not_isMark_of_isDigit ?_)
      by_contra hx
      rw [number?_eq_none (by simpa using hx)] at hn
      cases hn

/-- So are names, -/
theorem shared_name : Shared true name? := by
  intro before cs ds h hcs
  refine ⟨h.agree hcs fun p w hp hw => name?_append hw hp, fun n hn => ?_⟩
  have hsize := size_of_name hn
  obtain ⟨x, xs, rfl, hx, -⟩ := exists_of_name? hn
  exact h.common hcs hsize (not_isMark_of_isNameStart hx)

/-- and string literals. -/
theorem shared_string : Shared true string? := by
  intro before cs ds h hcs
  refine ⟨h.string?_eq hcs, fun n hn => ?_⟩
  have hsize := size_of_string hn
  obtain ⟨xs, m, rfl, -, -⟩ := exists_of_string? hn
  exact h.common hcs hsize (by decide)

/-! ### Marks -/

/-- The text is one mark, or several of which none is blank space or the start of a comment. -/
structure Sign (text : List Char) : Prop where
  marks : ∀ x ∈ text, isMark x
  free : text.length = 1 ∨ ∀ x ∈ text, isSpace x = false ∧ x ≠ '/'

/-- Signs are recognized character by character. -/
def isSign (text : List Char) : Bool :=
  text.all isMark && (text.length == 1 || text.all fun x => !isSpace x && x != '/')

/-- What is recognized as a sign is one. -/
theorem sign_of_isSign (h : isSign text) : Sign text := by
  simp only [isSign, Bool.and_eq_true, Bool.or_eq_true, List.all_eq_true, beq_iff_eq,
    Bool.not_eq_true', bne_iff_ne] at h
  exact ⟨h.1, h.2⟩

/-- Where comments are blank space, a sign of several marks is not broken up. -/
theorem Sign.boundary (h : Sign text) : text.length = 1 ∨ ∀ x ∈ ['\n', ' ', '/'], x ∉ text := by
  refine h.free.imp_right fun hfree x hx hmem => ?_
  obtain ⟨hspace, hslash⟩ := hfree x hmem
  simp only [List.mem_cons, List.not_mem_nil, or_false] at hx
  rcases hx with rfl | rfl | rfl
  · cases hspace
  · cases hspace
  · exact hslash rfl

/-- A sign is the same in both texts, and the texts go on after it. -/
theorem Veil.through_sign (h : Veil before (text ++ rest) ds) (hq : Quiet (text ++ rest))
    (htext : Sign text) : ∃ b ds', ds = text ++ ds' ∧ Veil b rest ds' := by
  obtain ⟨hmarks, hfree⟩ := htext
  induction text generalizing before ds with
  | nil => exact ⟨before, ds, rfl, h⟩
  | cons x text ih =>
      obtain ⟨hx, hmarks⟩ := List.forall_mem_cons.mp hmarks
      obtain ⟨ds₁, rfl, h₁⟩ := h.mark_of_quiet hq hx
      rcases hfree with hlength | hfree
      · obtain rfl : text = [] := List.length_eq_zero_iff.mp (Nat.succ.inj hlength)
        exact ⟨_, ds₁, rfl, h₁⟩
      · obtain ⟨-, hfree⟩ := List.forall_mem_cons.mp hfree
        cases text with
        | nil => exact ⟨_, ds₁, rfl, h₁⟩
        | cons y ys =>
            have hstarts : Cursor.Starts (y :: ys ++ rest) := by
              rintro z ⟨⟩
              exact hfree y List.mem_cons_self
            obtain ⟨b, ds', rfl, h'⟩ := ih h₁ (hstarts.quiet (b := []) nofun) hmarks (.inr hfree)
            exact ⟨b, ds', rfl, h'⟩

theorem Veil.common_sign (h : Veil before (text ++ rest) ds) (hcs : Settled (text ++ rest))
    (htext : Sign text) : Common false text.length (text ++ rest) ds := by
  obtain ⟨b, ds', rfl, h'⟩ := h.through_sign hcs.quiet htext
  exact common_append nofun h'

/-- A sign of several. -/
theorem shared_operatorAt? {ops : List String} (hops : ∀ op ∈ ops, isSign op.toList) :
    Shared false fun cs => (Grammar.operatorAt? ops cs).map String.length := by
  intro before cs ds h hcs
  dsimp only
  rw [h.operatorAt?_eq hcs fun op hop => (sign_of_isSign (hops op hop)).boundary]
  refine ⟨rfl, fun n hn => ?_⟩
  obtain ⟨op, hop, rfl⟩ := Option.map_eq_some_iff.mp hn
  obtain ⟨hmem, rest, rfl⟩ := Grammar.operatorAt?_some hop
  rw [← String.length_toList]
  exact h.common_sign hcs (sign_of_isSign (hops op hmem))

/-- A mark of one character. -/
theorem shared_mark {text : String} (htext : text.toList = [x]) (hx : isMark x)
    (hoperand : operand → endsOperand [x]) :
    Shared operand fun cs => if text.toList.isPrefixOf cs then some text.length else none := by
  intro before cs ds h hcs
  dsimp only
  rw [h.isPrefixOf_eq hcs (.inl (by rw [htext]; rfl))]
  refine ⟨rfl, fun n hn => ?_⟩
  split at hn
  · rename_i hspelled
    cases hn
    rw [htext] at hspelled
    obtain ⟨xs, rfl⟩ := (Grammar.isPrefixOf_singleton cs).mp hspelled
    obtain ⟨ds', rfl, h'⟩ := h.mark_of_quiet hcs.quiet hx
    rw [Grammar.length_of_toList htext]
    exact (common_append hoperand h' : Common operand [x].length ([x] ++ xs) ([x] ++ ds'))
  · cases hn

/-- The sign of an assignment is shared. -/
theorem shared_assignSign : Shared false assignSign? := by
  intro before cs ds h hcs
  refine ⟨h.agree hcs fun p w hp hw => assignSign?_append hw hp, fun n hn => ?_⟩
  obtain ⟨xs, rfl, rfl⟩ := exists_of_assignSign? hn
  have hsign : Sign ['='] := sign_of_isSign (by decide)
  exact (h.common_sign hcs hsign : Common false ['='].length (['='] ++ xs) ds)

/-! ### Words -/

/-- Neither blank space nor a slash is part of a word. -/
theorem not_boundary_of_isWord (hword : IsWord word) : ∀ x ∈ ['\n', ' ', '/'], x ∉ word.toList := by
  have hall : ∀ x ∈ ['\n', ' ', '/'], ¬ Text.isNameChar x :=
    Grammar.forall_of_all (by decide)
  exact fun x hx hmem => hall x hx (Grammar.isNameChar_of_isWord hword x hmem)

/-- A word is the same, and the texts go on after it. -/
theorem Veil.through_word (h : Veil before (word.toList ++ rest) ds) (hword : IsWord word)
    (hrest : endsName rest) (hcs : Quiet (word.toList ++ rest)) :
    ∃ ds', ds = word.toList ++ ds' ∧ Veil word.toList rest ds' := by
  have hsize : size (word.toList ++ rest) = word.toList.length := by
    rw [size_of_name (wordAt_append hword hrest).size, String.length_toList]
  obtain ⟨x, xs, hx, -⟩ := hword
  obtain ⟨ds', rfl, h'⟩ := h.lexeme_of_quiet hcs (by simp [hx])
  rw [hsize, List.take_left, List.drop_left] at h'
  rw [hsize, List.take_left]
  exact ⟨ds', rfl, h'⟩

/-- A keyword is run into on both texts or on none. -/
theorem Veil.startsWord_eq {rest' : List Char} (hword : IsWord word)
    (h : Veil before (word.toList ++ rest) (word.toList ++ rest'))
    (hcs : Settled (word.toList ++ rest)) :
    Grammar.startsWord rest' = Grammar.startsWord rest := by
  have hsame := h.agree hcs (f := fun cs =>
    word.toList.isPrefixOf cs && Grammar.startsWord (cs.drop word.toList.length))
    fun p w hp hw => ?_
  · have hspelled : ∀ es, word.toList.isPrefixOf (word.toList ++ es) = true := fun es =>
      List.isPrefixOf_iff_prefix.mpr (List.prefix_append _ es)
    simpa [hspelled] using hsame
  · -- a word that ends with the common part is followed by a comment or a blank
    rw [isPrefixOf_boundary (.inr (not_boundary_of_isWord hword)) hp hw]
    by_cases hspelled : word.toList.isPrefixOf p
    · rw [drop_append (List.isPrefixOf_iff_prefix.mp hspelled).length_le, startsWord_append hw]
    · simp [hspelled]

/-- A word may end an operand. -/
theorem endsOperand_of_isWord (hword : IsWord word) : endsOperand word.toList := by
  obtain ⟨x, xs, hn, hx, -⟩ := hword
  rw [hn, endsOperand, List.head?_cons, Option.any_some, not_isMark_of_isNameStart hx]
  rfl

/-- The mark of a mutable binding is shared. -/
theorem shared_mutMark : Shared false mutMark? := by
  intro before cs ds h hcs
  refine ⟨h.agree hcs fun p w _ hw => word?_append hw (Grammar.forall_of_all (by decide)) p,
    fun n hn => ?_⟩
  obtain ⟨rest, rfl, rfl, hrest⟩ := exists_of_word? hn
  -- the mark and the word after it are two lexemes
  obtain ⟨ds₁, rfl, h₁⟩ := h.mark_of_quiet hcs.quiet (x := '@') (by decide)
  have hstarts : Cursor.Starts ("mut".toList ++ rest) := by
    rintro z ⟨⟩
    decide
  have hword : IsWord "mut" := ⟨'m', ['u', 't'], rfl, by decide, Grammar.forall_of_all (by decide)⟩
  obtain ⟨ds', rfl, h'⟩ := h₁.through_word hword hrest (hstarts.quiet (b := []) nofun)
  exact (common_append nofun h' : Common false "@mut".toList.length ("@mut".toList ++ rest)
    ("@mut".toList ++ ds'))

/-- A return without a value is shared, unless a comment decides it. -/
theorem shared_bareReturn : Shared false bareReturn? := by
  intro before cs ds h hcs
  have hword : IsWord "return" := Grammar.isWord_of_mem_keywords (by decide)
  have hsame : word? "return" ds = word? "return" cs :=
    h.agree hcs fun p w _ hw => word?_append hw (Grammar.forall_of_all (by decide)) p
  cases hn : word? "return" cs with
  | none =>
      refine ⟨?_, fun n hn' => ?_⟩
      · rw [bareReturn?, bareReturn?, hsame, hn]
        rfl
      · rw [bareReturn?, hn] at hn'
        cases hn'
  | some n =>
      obtain ⟨rest, rfl, rfl, hrest⟩ := exists_of_word? hn
      obtain ⟨ds', rfl, h'⟩ := h.through_word hword hrest hcs.quiet
      have hdrop : ∀ es, ("return".toList ++ es).drop "return".length = es := fun es => rfl
      refine ⟨?_, fun n hn' => ?_⟩
      · rw [bareReturn?, bareReturn?, hsame, hn, Option.bind_some, Option.bind_some, hdrop, hdrop,
          h'.endsStatement_eq]
      · obtain ⟨-, -, rfl, -⟩ := exists_of_bareReturn? hn'
        have hcommon : Common false "return".toList.length ("return".toList ++ rest)
            ("return".toList ++ ds') := common_append (absurd · Bool.false_ne_true) h'
        exact hcommon

end Lexeme

namespace Grammar

open Cursor (Veiled SamePlace)
open Lexeme

variable {before after : Bool} {c d : Cursor} {n : Nat} {size? : List Char → Option Nat}
  {cause : Cause} {word text : String} {ops : List String} {x : Char} {mode : Mode}

/-! ### Tokens -/

/-- The tokens have the same text and stand at the same place. -/
structure Token.Same (t t' : Token) : Prop where
  text : t'.text = t.text
  place : SamePlace t.start t'.start

theorem Token.Same.string {t t' : Token} (h : t.Same t') : t'.string = t.string := by
  rw [Token.string, Token.string, h.text]

theorem Token.Same.leaf {t t' : Token} (h : t.Same t') (kind : Tree.Kind) (value : Datum) :
    t'.leaf kind value = t.leaf kind value := by
  rw [Token.leaf, Token.leaf, h.string, h.place.span]

/-- A node does not depend on which of the texts it is from. -/
theorem nodeAt_congr {start start' : Cursor} (h : SamePlace start start') (kind : Tree.Kind)
    (value : Datum) (ts : List Tree) :
    nodeAt start' kind value ts = nodeAt start kind value ts := by
  rw [nodeAt, nodeAt, h.span]

/-- A lexeme that is common to both texts is taken from both. -/
theorem agrees_take {operand : Bool} (hcd : Veiled operand c d)
    (h : Common after n c.rest d.rest) :
    (Token.take c n).Agrees after Token.Same (Token.take d n) := by
  obtain ⟨b, hb, hveil⟩ := h.rest
  exact .ok ⟨h.take, hcd.toSamePlace⟩ (hcd.advance h.take hb hveil)

/-- A lexeme of a class, without skipping. -/
def lexemeHere (size? : List Char → Option Nat) (cause : Cause) : Parser Token := fun c =>
  match size? c.rest with
  | some n => Token.take c n
  | none => .fail ⟨c.offset, cause⟩

/-- A lexeme of a class that is shared is read alike. -/
theorem agrees_lexemeHere {operand : Bool} (h : Shared after size?) (hcd : Veiled operand c d)
    (hc : Settled c.rest) :
    (lexemeHere size? cause c).Agrees after Token.Same (lexemeHere size? cause d) := by
  obtain ⟨before, -, hveil⟩ := hcd.rest
  obtain ⟨hsize, hcommon⟩ := h before c.rest d.rest hveil hc
  simp only [lexemeHere, hsize]
  cases hn : size? c.rest with
  | none => exact .fail _ _
  | some n => exact agrees_take hcd (hcommon n hn)

/-- So it is after skipping. -/
theorem agree_lexeme (h : Shared after size?) :
    Agree before after Token.Same (lexeme size? cause) (lexeme size? cause) :=
  fun _ _ hcd => agrees_lexemeHere h hcd.skip.1 hcd.skip.2

/-- A mark of one character. -/
theorem agree_symbol (htext : text.toList = [x]) (hx : isMark x) :
    Agree before false Token.Same (symbol text) (symbol text) :=
  agree_lexeme (shared_mark htext hx nofun)

/-- A closing bracket may end an operand. -/
theorem agree_closing (htext : text.toList = [x]) (hx : x ∈ [')', ']', '\x7d']) :
    Agree before true Token.Same (symbol text) (symbol text) := by
  have hall : ∀ x ∈ [')', ']', '\x7d'], isMark x ∧ endsOperand [x] :=
    forall_of_all (by decide)
  exact agree_lexeme (shared_mark htext (hall x hx).1 fun _ => (hall x hx).2)

/-- A prefix operator is a lexeme of a class. -/
theorem prefixOperator_eq_lexeme (ops : List String) :
    prefixOperator ops
      = lexeme (fun cs => (operatorAt? ops cs).map String.length) (.operator ops) := by
  funext c
  simp only [prefixOperator, lexeme]
  cases operatorAt? ops c.skip.rest <;> rfl

theorem agree_prefixOperator :
    Agree before false Token.Same (prefixOperator prefixOperators)
      (prefixOperator prefixOperators) := by
  rw [prefixOperator_eq_lexeme]
  exact agree_lexeme (shared_operatorAt? (by decide))

/-! ### Tokens on the line of an operand -/

/-- What goes on with an operand is a sign. -/
theorem signs_continuations : ∀ op ∈ continuations, isSign op.toList := by decide

/-- Where a text does not go on with an operand there is no binary operator. -/
theorem operatorAt?_eq_none (hops : ∀ op ∈ ops, op ∈ continuations) {cs : List Char}
    (h : continues cs = false) : operatorAt? ops cs = none := by
  simp only [continues, operatorAt?, Option.isSome_eq_false_iff, Option.isNone_iff_eq_none,
    List.find?_eq_none] at h ⊢
  exact fun op hop => h op (hops op hop)

/-- A lexeme that goes on with an operand. -/
theorem agree_inLine {q : Parser Token} (hq : ∀ c, q c = lexemeHere size? cause c.skipInLine)
    (h : Shared after size?) (hstop : ∀ cs, continues cs = false → size? cs = none) :
    Agree true after Token.Same q q := by
  intro c d hcd
  rw [hq, hq]
  rcases hcd.skipInLine with ⟨hc, hd⟩ | ⟨hcd', hsettled⟩
  · -- the cursors may be apart, but there is no such lexeme at either of them
    rw [lexemeHere, lexemeHere, hstop _ hc, hstop _ hd]
    exact .fail _ _
  · exact agrees_lexemeHere h hcd' hsettled

/-- A binary operator, which has to stand on the line of its operand. -/
theorem agree_operator (hops : ∀ op ∈ ops, op ∈ continuations) :
    Agree true false Token.Same (operator ops) (operator ops) := by
  have hshared := shared_operatorAt? fun op hop => signs_continuations op (hops op hop)
  have hhere : ∀ c, operator ops c
      = lexemeHere (fun cs => (operatorAt? ops cs).map String.length) (.operator ops)
        c.skipInLine := by
    intro c
    simp only [operator, lexemeHere]
    cases operatorAt? ops c.skipInLine.rest <;> rfl
  refine agree_inLine hhere hshared fun cs hcs => ?_
  rw [operatorAt?_eq_none hops hcs]
  rfl

/-- So has the mark of a call or an index. -/
theorem agree_symbolInLine (htext : text.toList = [x]) (hx : isMark x)
    (hmem : text ∈ continuations) :
    Agree true false Token.Same (symbolInLine text) (symbolInLine text) := by
  have hhere : ∀ c, symbolInLine text c
      = lexemeHere (fun cs => if text.toList.isPrefixOf cs then some text.length else none)
        (.token text) c.skipInLine := by
    intro c
    simp only [symbolInLine, lexemeHere]
    split <;> rfl
  have hshared : Shared false _ := shared_mark htext hx (absurd · Bool.false_ne_true)
  refine agree_inLine hhere hshared fun cs hcs => ?_
  have hnone : operatorAt? [text] cs = none := operatorAt?_eq_none (by simpa using hmem) hcs
  simp only [operatorAt?, List.find?_eq_none, List.mem_singleton, forall_eq] at hnone
  rw [if_neg hnone]

/-! ### Words -/

/-- A keyword may end an operand, as far as its lexeme tells. -/
theorem agree_keyword (hmem : word ∈ keywords) :
    Agree before true Token.Same (keyword word) (keyword word) := by
  intro c d hcd
  have hword := isWord_of_mem_keywords hmem
  obtain ⟨hcd', hsettled⟩ := hcd.skip
  obtain ⟨b, -, hveil⟩ := hcd'.rest
  have hspelling : word.toList.isPrefixOf d.skip.rest = word.toList.isPrefixOf c.skip.rest :=
    hveil.isPrefixOf_eq hsettled (.inr (not_boundary_of_isWord hword))
  have hclear := hcd'.clear
  simp only [keyword, hspelling]
  split
  · rename_i hspelled
    obtain ⟨rest, hrest⟩ := List.isPrefixOf_iff_prefix.mp hspelled
    obtain ⟨rest', hrest'⟩ := List.isPrefixOf_iff_prefix.mp (hspelling.trans hspelled)
    have hne : c.skip.rest ≠ [] := by
      obtain ⟨x, xs, hx, -⟩ := hword
      simp [← hrest, hx]
    rw [← hrest] at hsettled
    rw [← hrest, ← hrest'] at hveil
    have hdrop : ∀ es, (word.toList ++ es).drop word.length = es := fun es =>
      List.drop_left' String.length_toList
    have hstarts := hveil.startsWord_eq hword hsettled
    rw [hclear hne]
    split
    · exact .fail _ _
    · rw [← hrest, ← hrest', hdrop, hdrop, hstarts]
      split
      · exact .fail _ _
      · rename_i hfree
        have hname := endsName_of_startsWord (by simpa using hfree)
        obtain ⟨es, hes, hveil'⟩ := hveil.through_word hword hname hsettled.quiet
        refine agrees_take hcd' ?_
        rw [← hrest, ← hrest', hes, ← String.length_toList]
        exact common_append (fun _ => endsOperand_of_isWord hword) hveil'
  · exact .fail _ _

theorem agree_name (mode : Mode) : Agree before true Token.Same (name mode) (name mode) := by
  refine (agree_lexeme shared_name).bind fun t t' ht => ?_
  exact .ite (by rw [ht.string]) (.fail _ _) (.pure ht)

/-- Both texts are over, or neither is. -/
theorem agree_endOfText : Agree before false Eq endOfText endOfText := by
  intro c d hcd
  obtain ⟨hcd', -⟩ := hcd.skip
  have hdims := hcd'.dims
  simp only [endOfText]
  generalize hc : c.skip.rest = cs at hdims
  generalize hd : d.skip.rest = ds at hdims
  cases hdims with
  | nil => exact .ok rfl hcd'
  | cons _ _ => exact .fail _ _

end Grammar

end Ember

import Ember.Grammar.Statement
import Ember.Proofs.Grammar.Follow

/-!
# Grammar — how expressions are read

Each layer of the grammar of expressions reads what the layer below it reads, and more. A text is
first read as a primary expression with calls and indexes, then as an operand, then as a chain of
operands at each level of operators, from the tightest to the loosest.

A chain is described by the number of its links, since probing ahead tries its first link on its
own.

* `Primary`, `Postfix`, `Operand`, `Chain`, `Level`: what the layers read.
* `level_of_chain`: a chain is read at its level, be it probed or read.
* `Readable`: all that an expression of a certain precedence can be read as.
-/

namespace Ember.Grammar

open Cursor (At Ready Starts Quiet)

variable {inner : Nest} {mode : Mode} {t : Tree} {text rest : List Char} {c : Cursor} {k : Nat}

/-- What was read is `t` up to places, and `rest` is left. -/
def Reads (t : Tree) (rest : List Char) (t' : Tree) (c : Cursor) : Prop :=
  t'.unplaced = t.unplaced ∧ c.rest = rest

/-! ### Nesting -/

/-- What is nested is read at the next inner depth, if there is one. -/
theorem nest_expression {Q : Tree → Cursor → Prop} {n : Nat}
    (h : ∀ m, (expression (nest m) mode c).Settles Q) :
    ((nest n).expression mode c).Settles Q := by
  cases n with
  | zero => exact Outcome.settles_tooDeep
  | succ m =>
      rw [nest, enclose_expression]
      exact h m

/-- What no depth reads as an expression is not read as one in brackets. -/
theorem nest_expression_passes {n : Nat} (h : ∀ m, (expression (nest m) mode c).Passes) :
    ((nest n).expression mode c).Passes := by
  cases n with
  | zero => exact Outcome.passes_tooDeep
  | succ m =>
      rw [nest, enclose_expression]
      exact h m

/-- An operand that is read at every depth is read in brackets, unless the depth is used up. -/
theorem nest_unary {Q : Tree → Cursor → Prop} {n : Nat}
    (h : ∀ m, (unary (nest m) mode c).Settles Q) : ((nest n).unary mode c).Settles Q := by
  cases n with
  | zero => exact Outcome.settles_tooDeep
  | succ m =>
      rw [nest, enclose_unary]
      exact h m

/-- So is a block. -/
theorem nest_block {Q : Tree → Cursor → Prop} {n : Nat}
    (h : ∀ m, (block (nest m) mode c).Settles Q) : ((nest n).block mode c).Settles Q := by
  cases n with
  | zero => exact Outcome.settles_tooDeep
  | succ m =>
      rw [nest, enclose_block]
      exact h m

/-! ### Layers -/

/-- The text is read as a primary expression. -/
def Primary (t : Tree) (text : List Char) : Prop :=
  ∀ n mode c rest, Delimited rest → At (text ++ rest) c →
    (primary (nest n) mode c).Settles (Reads t rest)

/-- One call or index of what has been read. -/
def suffix (inner : Nest) (mode : Mode) (target : Tree) : Parser Tree :=
  firstOf [callSuffix inner mode target, indexSuffix inner mode target]

/-- The text is read as a primary expression with a number of calls and indexes. -/
def Postfix (t : Tree) (text : List Char) : Prop :=
  ∃ m, ∀ n mode c rest, Delimited rest → At (text ++ rest) c →
    Runs (suffix (nest n) mode) m rest (fun t' => t'.unplaced = t.unplaced)
      (primary (nest n) mode c)

/-- The text is read as an operand with its prefix operators. -/
def Operand (t : Tree) (text : List Char) : Prop :=
  ∀ n mode c rest, Follow 6 rest → At (text ++ rest) c →
    (unary (nest n) mode c).Settles (Reads t rest)

/-- An expression of the given levels, probed or read. -/
def tower (inner : Nest) : Mode → List (List String) → Parser Tree
  | .probe, ls => fun c => probeFrom inner ls (unary inner .probe c) c
  | .read, ls => fun c => readFrom inner ls (unary inner .probe c) (unary inner .read c) c

/-- The operands of a chain. -/
def operand (inner : Nest) (mode : Mode) (tighter : List (List String)) : Parser Tree :=
  fun c => tower inner mode tighter c.skip

/-- The text is read as an expression of level `k`. -/
def Level (k : Nat) (t : Tree) (text : List Char) : Prop :=
  ∀ n mode c rest, Follow k rest → Ready (text ++ rest) c →
    (tower (nest n) mode (levels.drop k) c).Settles (Reads t rest)

/-- The text is read as a chain with a number of links of level `k`. -/
def Chain (k : Nat) (t : Tree) (text : List Char) : Prop :=
  ∃ m, ∀ n mode c rest, Follow (k + 1) rest → Ready (text ++ rest) c →
    Runs (link (operatorsAt k) (operand (nest n) mode (levels.drop (k + 1))) c) m rest
      (fun t' => t'.unplaced = t.unplaced) (tower (nest n) mode (levels.drop (k + 1)) c)

/-! ### From one layer to the next -/

/-- A primary expression stands for itself, without calls and indexes. -/
theorem Primary.suffixed (h : Primary t text) : Postfix t text :=
  ⟨0, fun n mode c rest hrest hat => runs_zero (h n mode c rest hrest hat)⟩

/-- What follows is neither a call nor an index. -/
theorem suffix_passes (h : Follow k c.rest) : (suffix inner mode t c).Passes := by
  refine firstOf_passes fun p hp => ?_
  simp only [List.mem_cons, List.not_mem_nil, or_false] at hp
  rcases hp with rfl | rfl
  · exact (bind_fails (symbolInLine_fails rfl h.quiet
      fun hx => (h.suffix _ hx).1 rfl)).passes
  · exact (bind_fails (symbolInLine_fails rfl h.quiet
      fun hx => (h.suffix _ hx).2 rfl)).passes

/-- With its calls and indexes an expression is read up to what follows. -/
theorem Postfix.settles (h : Postfix t text) (n : Nat) (mode : Mode) (hrest : Follow k rest)
    (hat : At (text ++ rest) c) : (postfixed (nest n) mode c).Settles (Reads t rest) := by
  obtain ⟨m, h⟩ := h
  have hruns := h n mode c rest hrest.delimited hat
  refine settles_bind hruns.first fun t' c' ht' => ?_
  exact ht'.repeatedly fun b d _ hd => suffix_passes (k := k) (hd ▸ hrest)

/-- The text starts with no sign. -/
def Unsigned (text : List Char) : Prop := ∃ x xs, text = x :: xs ∧ x ≠ '-' ∧ x ≠ '!'

/-- Where there is no prefix operator, none is read. -/
theorem prefixed_passes {cs : List Char} (h : At cs c) (hcs : ∀ y ∈ cs.head?, y ≠ '-' ∧ y ≠ '!') :
    (prefixed inner mode c).Passes := by
  unfold prefixed
  exact (bind_fails (prefixOperator_fails h hcs)).passes

/-- Without signs before it, an operand is what it is read as without prefix operators. -/
theorem unary_settles {Q : Tree → Cursor → Prop} (hsign : (prefixed inner mode c.skip).Passes)
    (h : (postfixed inner mode c.skip).Settles Q) : (unary inner mode c).Settles Q := by
  unfold unary unaryFrom
  exact (hsign.or h).relabel c.skip.offset (.operation prefixOperators)

/-- What starts with no prefix operator is an operand. -/
theorem Postfix.operand (h : Postfix t text) (htext : Unsigned text) : Operand t text := by
  intro n mode c rest hrest hat
  obtain ⟨x, xs, rfl, hx⟩ := htext
  refine unary_settles (prefixed_passes hat.at fun y hy => ?_) (h.settles n mode hrest hat.at)
  cases hy
  exact hx

/-- An operand is an expression of the tightest level. -/
theorem Operand.level (h : Operand t text) : Level 6 t text := by
  intro n mode c rest hrest hat
  cases mode with
  | probe => exact h n .probe c rest hrest hat.at
  | read => exact h n .read c rest hrest hat.at

/-- An expression of a level is a chain of one operand for the looser level. -/
theorem Level.chain (h : Level (k + 1) t text) : Chain k t text :=
  ⟨0, fun n mode c rest hrest hat => runs_zero (h n mode c rest hrest hat)⟩

/-- A chain ends where no operator of its level follows. -/
theorem link_passes {ops : List String} {p : Parser Tree} {start : Cursor}
    (h : Follow k c.rest) (hops : ops ∈ levels.drop k) : (link ops p start t c).Passes :=
  (bind_fails (operator_fails h.quiet (h.operators ops hops))).passes

/-- Probing ahead makes the first link of a chain, if there is one, and then the others. -/
theorem settles_probeLinks {step : Tree → Parser Tree} {P : Tree → Prop} {m : Nat}
    (h : Runs step m rest P (.ok t c))
    (hstop : ∀ b d, P b → d.rest = rest → (step b d).Passes) :
    (probeLinks step t c).Settles fun b d => P b ∧ d.rest = rest := by
  rw [probeLinks]
  cases m with
  | zero =>
      have hrun : P t ∧ c.rest = rest := Outcome.settles_ok.mp h.run
      rcases (hstop t c hrun.1 hrun.2).tentative c.offset (.construct "link") with ⟨f, ho⟩ | ho
      · rw [ho]
        exact Outcome.settles_ok.mpr hrun
      · rw [ho]
        exact Outcome.settles_tooDeep
  | succ m =>
      rcases h.tail.first.tentative c.offset (.construct "link") with ⟨b, d, ho, hb⟩ | ho
      · rw [ho]
        exact hb.repeatedly hstop
      · rw [ho]
        exact Outcome.settles_tooDeep

section

variable {ops : List String} {tighter : List (List String)} {P : Tree → Prop} {m : Nat}

/-- A chain is probed. -/
theorem settles_probe
    (h : Runs (link ops (operand inner .probe tighter) c) m rest P (tower inner .probe tighter c))
    (hstop : ∀ b d, P b → d.rest = rest →
      (link ops (operand inner .probe tighter) c b d).Passes) :
    (tower inner .probe (ops :: tighter) c).Settles fun b d => P b ∧ d.rest = rest := by
  have hprobe : probeFrom inner tighter (unary inner .probe c) c
    = tower inner .probe tighter c := rfl
  rw [tower]
  simp only [probeFrom, hprobe]
  rcases h.first with ⟨t, d, ho, ht⟩ | ho
  · simp only [ho]
    exact settles_probeLinks ht hstop
  · simp only [ho]
    exact Outcome.settles_tooDeep

/-- A chain is read once its first link has been probed. -/
theorem settles_read
    (h : ∀ mode, Runs (link ops (operand inner mode tighter) c) m rest P
      (tower inner mode tighter c))
    (hstop : ∀ mode b d, P b → d.rest = rest →
      (link ops (operand inner mode tighter) c b d).Passes) :
    (tower inner .read (ops :: tighter) c).Settles fun b d => P b ∧ d.rest = rest := by
  have hprobe : probeFrom inner tighter (unary inner .probe c) c
    = tower inner .probe tighter c := rfl
  have hread : readFrom inner tighter (unary inner .probe c) (unary inner .read c) c
    = tower inner .read tighter c := rfl
  have hahead : probeAt inner tighter = operand inner .probe tighter := rfl
  rw [tower]
  simp only [readFrom, hprobe, hread, hahead]
  rcases (h .probe).first with ⟨t, d, ho, ht⟩ | ho
  · simp only [ho]
    cases m with
    -- there is no link, so what is probed fails and the first operand stands alone
    | zero =>
        have hrun : P t ∧ d.rest = rest := Outcome.settles_ok.mp ht.run
        have hpass := hstop .probe t d hrun.1 hrun.2
        rcases hpass.tentative c.offset (.operation ops) with ⟨f, hlink⟩ | hlink
        · simp only [hlink]
          exact ((Outcome.fails_fail f).passes.or (h .read).run).relabel c.offset (.operation ops)
        · simp only [hlink]
          exact Outcome.settles_tooDeep
    -- the first link is probed with success, so the whole chain is read
    | succ m =>
        rcases ht.tail.first.tentative c.offset (.operation ops) with ⟨b, e, hlink, -⟩ | hlink
        · simp only [hlink]
          rcases (h .read).first with ⟨u, e', hfirst, hu⟩ | hfirst
          · simp only [hfirst]
            exact hu.repeatedly (hstop .read)
          · simp only [hfirst]
            exact Outcome.settles_tooDeep
        · simp only [hlink]
          exact Outcome.settles_tooDeep
  · simp only [ho]
    exact Outcome.settles_tooDeep

end

/-- **A chain is read at its level**, be it probed or read. -/
theorem level_of_chain (hk : k < 6) (h : Chain k t text) : Level k t text := by
  obtain ⟨m, h⟩ := h
  intro n mode c rest hrest hat
  -- both modes make the same number of links, so what is probed decides what is read
  have hruns := fun mode => h n mode c rest (hrest.mono (Nat.le_succ k)) hat
  have hops : operatorsAt k ∈ levels.drop k := by
    rw [drop_levels hk]
    exact List.mem_cons_self
  have hstop : ∀ mode b d, b.unplaced = t.unplaced → d.rest = rest →
      (link (operatorsAt k) (operand (nest n) mode (levels.drop (k + 1))) c b d).Passes :=
    fun mode b d _ hd => link_passes (k := k) (hd ▸ hrest) hops
  rw [drop_levels hk]
  cases mode with
  | probe => exact settles_probe (hruns .probe) (hstop .probe)
  | read => exact settles_read hruns hstop

/-- An expression of a level is one of all looser levels. -/
theorem Level.loosen {j : Nat} (h : Level k t text) (hk : k ≤ 6) (hj : j ≤ k) :
    Level j t text := by
  induction hj using Nat.decreasingInduction with
  | self => exact h
  | of_succ i hi ih => exact level_of_chain (by omega) ih.chain

/-! ### Expressions -/

/-- An expression is read by the tower of all levels. -/
theorem expression_eq (h : c.skip.skip = c.skip) :
    expression inner mode c = tower inner mode levels c.skip := by
  cases mode <;> simp only [expression, expressionFrom, tower, unary, h]

theorem Level.expression (h : Level 0 t text) (n : Nat) (mode : Mode) (hrest : Follow 0 rest)
    (hat : At (text ++ rest) c) : (expression (nest n) mode c).Settles (Reads t rest) := by
  rw [expression_eq hat.skip]
  exact h n mode c.skip rest hrest hat

/-- Where there is no operand there is no expression. -/
theorem tower_passes {ls : List (List String)} (h : ∀ mode, (unary inner mode c).Passes) :
    (tower inner mode ls c).Passes := by
  have hprobe : ∀ ls, (probeFrom inner ls (unary inner .probe c) c).Passes := by
    intro ls
    induction ls with
    | nil => exact h .probe
    | cons ops ls ih =>
        rw [probeFrom]
        rcases ih with ⟨f, ho⟩ | ho
        · simp only [ho]
          exact (Outcome.fails_fail f).passes.relabel c.offset (.operation ops)
        · simp only [ho]
          exact Outcome.passes_tooDeep
  have hread : ∀ ls, (readFrom inner ls (unary inner .probe c) (unary inner .read c) c).Passes := by
    intro ls
    induction ls with
    | nil => exact h .read
    | cons ops ls ih =>
        rw [readFrom]
        rcases hprobe ls with ⟨f, ho⟩ | ho
        · simp only [ho]
          exact ((Outcome.fails_fail f).passes.or_passes ih).relabel c.offset (.operation ops)
        · simp only [ho]
          exact Outcome.passes_tooDeep
  cases mode with
  | probe => exact hprobe ls
  | read => exact hread ls

/-- There is no operand where there is neither a prefix operator nor anything else. -/
theorem unary_passes (hsign : (prefixed inner mode c.skip).Passes)
    (h : (postfixed inner mode c.skip).Passes) : (unary inner mode c).Passes := by
  unfold unary unaryFrom
  exact (hsign.or_passes h).relabel c.skip.offset (.operation prefixOperators)

/-- What the text starts with is not assigned to. -/
def Unassigned (text : List Char) : Prop :=
  ∀ n mode c rest, Follow 6 rest → Lexeme.assignSign? (rest.dropWhile Cursor.isSpace) = none →
    Ready (text ++ rest) c → (assignFrom (nest n) mode (postfixed (nest n) mode c) c).Passes

/-- Where no sign follows, there is no assignment, -/
theorem assignFrom_passes {o : Outcome Tree} (h : o.Settles (Reads t rest)) (hq : Quiet rest)
    (hsign : Lexeme.assignSign? (rest.dropWhile Cursor.isSpace) = none) (start : Cursor) :
    (assignFrom inner mode o start).Passes := by
  rcases h with ⟨t', c', rfl, -, hrest⟩ | rfl
  · have hskip : c'.skip.rest = rest.dropWhile Cursor.isSpace := by
      rw [Cursor.skip_rest (hrest ▸ hq), hrest]
    exact (bind_fails (lexeme_fails hskip hsign)).passes
  · exact Outcome.passes_tooDeep

/-- and none where there is no target. -/
theorem assignFrom_passes_of_passes {o : Outcome Tree} (h : o.Passes) (start : Cursor) :
    (assignFrom inner mode o start).Passes := by
  rcases h with ⟨f, rfl⟩ | rfl
  · exact (Outcome.fails_fail f).passes
  · exact Outcome.passes_tooDeep

theorem Postfix.unassigned (h : Postfix t text) : Unassigned text :=
  fun n mode c _ hrest hsign hat =>
    assignFrom_passes (h.settles n mode hrest hat.at) hrest.quiet hsign c

/-- The text is read as an expression of precedence `p`, wherever one of that precedence may
stand. -/
structure Readable (p : Nat) (t : Tree) (text : List Char) : Prop where
  opens : ∀ rest, Delimited rest → Opens (text ++ rest)
  unassigned : Unassigned text
  chain : ∀ k < 6, k ≤ p → Chain k t text
  operand : 6 ≤ p → Operand t text
  suffixed : 7 ≤ p → Postfix t text
  unsigned : 7 ≤ p → Unsigned text

variable {p q : Nat}

/-- What can be read back at a precedence can be read back at a looser one. -/
theorem Readable.mono (h : Readable p t text) (hq : q ≤ p) : Readable q t text where
  opens := h.opens
  unassigned := h.unassigned
  chain k hk hkq := h.chain k hk (hkq.trans hq)
  operand hkq := h.operand (hkq.trans hq)
  suffixed hkq := h.suffixed (hkq.trans hq)
  unsigned hkq := h.unsigned (hkq.trans hq)

theorem readable_of_chain (hk : k < 6) (hopens : ∀ rest, Delimited rest → Opens (text ++ rest))
    (hassign : Unassigned text) (h : Chain k t text) : Readable k t text where
  opens := hopens
  unassigned := hassign
  chain j hj hjk := by
    rcases Nat.lt_or_eq_of_le hjk with hlt | rfl
    · exact ((level_of_chain hk h).loosen (by omega) hlt).chain
    · exact h
  operand hle := by omega
  suffixed hle := by omega
  unsigned hle := by omega

/-- An operand with prefix operators has the precedence of these. -/
theorem readable_of_operand (hopens : ∀ rest, Delimited rest → Opens (text ++ rest))
    (hassign : Unassigned text) (h : Operand t text) : Readable 6 t text where
  opens := hopens
  unassigned := hassign
  chain _ hk _ := (h.level.loosen (Nat.le_refl 6) hk).chain
  operand _ := h
  suffixed hle := by omega
  unsigned hle := by omega

/-- Calls and indexes bind tightest. -/
theorem readable_of_postfix (hopens : ∀ rest, Delimited rest → Opens (text ++ rest))
    (htext : Unsigned text) (h : Postfix t text) : Readable 7 t text where
  opens := hopens
  unassigned := h.unassigned
  chain _ hk _ := ((h.operand htext).level.loosen (Nat.le_refl 6) hk).chain
  operand _ := h.operand htext
  suffixed _ := h
  unsigned _ := htext

/-- What can be read back at a precedence is an expression of the level. -/
theorem Readable.level (h : Readable p t text) (hkp : k ≤ p) (hk : k ≤ 6) : Level k t text := by
  rcases Nat.lt_or_eq_of_le hk with hlt | rfl
  · exact level_of_chain hlt (h.chain k hlt hkp)
  · exact (h.operand hkp).level

/-- An expression is read wherever one may stand. -/
theorem Readable.expression (h : Readable p t text) (n : Nat) (mode : Mode)
    (hrest : Follow 0 rest) (hat : At (text ++ rest) c) :
    (expression (nest n) mode c).Settles (Reads t rest) :=
  (h.level (Nat.zero_le p) (Nat.zero_le 6)).expression n mode hrest hat

end Ember.Grammar

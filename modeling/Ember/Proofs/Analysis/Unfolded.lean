import Ember.Proofs.Analysis
import Ember.Proofs.Node.Congruent

/-!
# Analysis — with or without folding negative literals

A minus sign before a number becomes part of the number. Here this special case is a parameter of
the analysis, so that it can be left out. Whether it is applied or not, and at which numbers, makes
no difference to which programs are refused, and little to their nodes: where one has a negative
literal the other has a minus sign before a literal.

* `Analysis.analyzeWith`: the analysis with the special case as a parameter;
  `Analysis.analyzeWith_folded`: with the usual one, it is the analysis.
* `analyzeTreesUnfolded`: the nodes of a program without the special case.
* `Node.Refolded`: nodes that differ in whether minus signs are part of literals.
* `Analysis.paired_analyzeWith`: the nodes that two such analyses make of a tree;
  `refolded_analyzeTrees`: those of a program.
-/

namespace Ember

namespace Analysis

section

variable (fold : Datum → Tree → Option (Option Datum))

mutual

/-- The node of a tree, as the analysis makes it, but that `fold` says which prefix operators become
part of their operands. -/
def analyzeWith (inFunction : Bool) : Tree → Result Node
  | .stray d => refuse (.notATree d.quoted) none
  | .node .number v _ s => .ok (.literal v (numberKind v) s)
  | .node .string v _ s => .ok (.literal v .str s)
  | .node .bool v _ s => .ok (.literal v .bool s)
  | .node .nil v _ s => .ok (.literal v .unit s)
  | .node .identifier v _ s => .ok (.identifier v.bare s)
  | .node .array _ cs s => do
    let es ← analyzeAllWith inFunction cs
    return .array es s
  | .node .binary v (l :: r :: _) s => do
    let left ← analyzeWith inFunction l
    let right ← analyzeWith inFunction r
    return .binary v.bare left right s
  | .node .logical v (l :: r :: _) s => do
    let left ← analyzeWith inFunction l
    let right ← analyzeWith inFunction r
    return .logical v.bare left right s
  | .node .unary v (e :: _) s =>
    match fold v e with
    | some (some d) => .ok (.literal d (numberKind d) s)
    | some none => refuse (.malformed "NUMBER") e.span
    | none => do
      let operand ← analyzeWith inFunction e
      return .unary v.bare operand s
  | .node .call _ (f :: cs) s => do
    let callee ← analyzeWith inFunction f
    let args ← analyzeAllWith inFunction cs
    return .call callee args s
  | .node .index _ (t :: i :: _) s => do
    let target ← analyzeWith inFunction t
    let index ← analyzeWith inFunction i
    return .index target index s
  | .node .functionExpr v (b :: _) s =>
    match functionHead? v with
    | none => refuse (.malformed "FUNCTION_EXPR") s
    | some (name, params) =>
      match firstRepeated? [] params with
      | some p => refuse (.duplicateParameter p name) s
      | none => do
        let body ← analyzeBlockWith true b
        return .functionExpr name params body s
  | .node .functionDef v (b :: _) s =>
    match functionHead? v with
    | none => refuse (.malformed "FUNCTION_DEF") s
    | some (name, params) =>
      match firstRepeated? [] params with
      | some p => refuse (.duplicateParameter p name) s
      | none => do
        let body ← analyzeBlockWith true b
        return .functionDef (name.getD "") params body s
  | .node .letStmt v (e :: _) s => do
    let init ← analyzeWith inFunction e
    match letHead? v with
    | none => refuse (.malformed "LET") s
    | some (name, mutable) => return .letStmt name mutable init s
  | .node .assign v (e :: _) s => do
    let value ← analyzeWith inFunction e
    return .assign v.bare value s
  | .node .indexAssign _ [t, i, e] s => do
    let target ← analyzeWith inFunction t
    let index ← analyzeWith inFunction i
    let value ← analyzeWith inFunction e
    return .indexAssign target index value s
  | .node .ifStmt _ [c, y] s => do
    let condition ← analyzeWith inFunction c
    let yes ← analyzeBlockWith inFunction y
    return .ifStmt condition yes none s
  | .node .ifStmt _ (c :: y :: n :: _) s => do
    let condition ← analyzeWith inFunction c
    let yes ← analyzeBlockWith inFunction y
    let no ← if n.kind? = some .ifStmt then analyzeWith inFunction n
      else analyzeBlockWith inFunction n
    return .ifStmt condition yes (some no) s
  | .node .whileStmt _ (c :: b :: _) s => do
    let condition ← analyzeWith inFunction c
    let body ← analyzeBlockWith inFunction b
    return .whileStmt condition body s
  | .node .forStmt v (e :: b :: _) s => do
    let iterable ← analyzeWith inFunction e
    let body ← analyzeBlockWith inFunction b
    return .forStmt v.bare iterable body s
  | .node .returnStmt _ cs s =>
    if inFunction then
      match cs with
      | [] => .ok (.returnStmt none s)
      | e :: _ => do
        let value ← analyzeWith inFunction e
        return .returnStmt (some value) s
    else refuse .returnOutside s
  | .node .block _ cs s => do
    let ss ← analyzeAllWith inFunction cs
    return .block ss s
  | .node .blockStmt _ (b :: _) _ => analyzeBlockWith inFunction b
  | .node .exprStmt _ (e :: _) s => do
    let expr ← analyzeWith inFunction e
    return .exprStmt expr s
  | .node (.other n) _ _ s => refuse (.unknownNode n) s
  | .node kind _ _ s => refuse (.malformed kind.name) s

/-- The block of a tree, whatever its kind. -/
def analyzeBlockWith (inFunction : Bool) : Tree → Result Node
  | .node _ _ cs s => do
    let ss ← analyzeAllWith inFunction cs
    return .block ss s
  | .stray d => refuse (.malformed d.quoted) none

/-- The nodes of several trees, from left to right. -/
def analyzeAllWith (inFunction : Bool) : List Tree → Result (List Node)
  | [] => .ok []
  | t :: ts => do
    let n ← analyzeWith inFunction t
    let ns ← analyzeAllWith inFunction ts
    return n :: ns

end

end

/-- **The usual special case** makes this the analysis. -/
theorem analyzeWith_folded : @analyzeWith foldedNegation? = @analyze := by
  delta analyzeWith analyze
  rfl

/-- With the folding of the program, a list is analyzed as the program does. -/
theorem analyzeAllWith_folded : @analyzeAllWith foldedNegation? = @analyzeAll := by
  delta analyzeAllWith analyzeAll
  rfl

end Analysis

/-- The nodes of a program, if no minus sign becomes part of a number. -/
def analyzeTreesUnfolded (ts : List Tree) : Except SemanticsError (List Node) :=
  (Analysis.analyzeAllWith (fun _ _ => none) false ts).mapError Analysis.Refusal.error

/-! ### Trees with negative numbers -/

namespace Tree

/-- The integer that a tree is a minus sign before. -/
def negated? : Tree → Option Int
  | .node .unary (.str "-") [.node .number (.int i) _ _] _ => some i
  | _ => none

mutual

/-- The integers in a tree that minus signs stand directly before. -/
def negatedIntegers : Tree → List Int
  | .stray _ => []
  | .node kind value cs span =>
    (negated? (.node kind value cs span)).toList ++ negatedIntegersAll cs

/-- The integers in several trees that minus signs stand directly before. -/
def negatedIntegersAll : List Tree → List Int
  | [] => []
  | t :: ts => negatedIntegers t ++ negatedIntegersAll ts

end

variable {t c : Tree} {cs : List Tree} {kind : Kind} {value : Datum} {span : Option Span} {i : Int}

theorem mem_negatedIntegersAll (hc : c ∈ cs) (hi : i ∈ c.negatedIntegers) :
    i ∈ negatedIntegersAll cs := by
  induction cs with
  | nil => cases hc
  | cons d cs ih =>
      rw [negatedIntegersAll, List.mem_append]
      rcases List.mem_cons.mp hc with rfl | hc
      · exact .inl hi
      · exact .inr (ih hc)

/-- No minus sign stands directly before an integer as large as the least one. Integers in a text
have no sign of their own, so this excludes a single one there. -/
def AvoidsLeast (t : Tree) : Prop := ∀ i ∈ t.negatedIntegers, i.natAbs ≠ 9223372036854775808

/-- If no such literal is in a tree, none is in its parts. -/
theorem AvoidsLeast.part (h : (node kind value cs span).AvoidsLeast) (hc : c ∈ cs) :
    c.AvoidsLeast := by
  intro i hi
  rw [AvoidsLeast, negatedIntegers] at h
  exact h i (List.mem_append_right _ (mem_negatedIntegersAll hc hi))

end Tree

/-! ### The nodes of two analyses -/

/-- An integer. -/
def Datum.IsInt (d : Datum) : Prop := ∃ i, d = .int i

/-- Nodes that differ in whether minus signs before integers are part of literals; none of these
integers is as large as the least one. -/
inductive Node.Refolded : Tree.Role → Node → Node → Prop where
  | congruent {role : Tree.Role} {n n' : Node} (h : Congruent Refolded role n n') :
      Refolded role n n'
  | unfolded {i : Int} {s s' : Option Span} (hi : i.natAbs ≠ 9223372036854775808) :
      Refolded .expression (.literal (.int (-i)) .int s)
        (.unary "-" (.literal (.int i) .int s') s)
  | folded {i : Int} {s s' : Option Span} (hi : i.natAbs ≠ 9223372036854775808) :
      Refolded .expression (.unary "-" (.literal (.int i) .int s') s)
        (.literal (.int (-i)) .int s)

namespace Node.Refolded

variable {n n' : Node}

theorem statement_congruent (h : Refolded .statement n n') :
    Congruent Refolded .statement n n' := by
  cases h with
  | congruent h => exact h

theorem block_congruent (h : Refolded .block n n') : Congruent Refolded .block n n' := by
  cases h with
  | congruent h => exact h

theorem branch_congruent (h : Refolded .branch n n') : Congruent Refolded .branch n n' := by
  cases h with
  | congruent h => exact h

end Node.Refolded

namespace Analysis

open Node (Refolded Congruent)

variable {α β γ δ : Type}

/-- Both outcomes are results that are related by `P`, or both are the same refusal. -/
inductive Paired (P : α → β → Prop) : Result α → Result β → Prop where
  | done {a : α} {b : β} (h : P a b) : Paired P (.ok a) (.ok b)
  | refused (r : Refusal) : Paired P (.error r) (.error r)

/-- Two analyses that go alike, followed by two that do, go alike. -/
theorem Paired.bind {P : α → β → Prop} {Q : γ → δ → Prop} {r : Result α} {r' : Result β}
    {f : α → Result γ} {f' : β → Result δ} (h : Paired P r r')
    (hf : ∀ a b, P a b → Paired Q (f a) (f' b)) : Paired Q (r >>= f) (r' >>= f') := by
  cases h with
  | done h => exact hf _ _ h
  | refused r => exact .refused r

theorem Paired.map {P Q : α → β → Prop} {r : Result α} {r' : Result β} (h : Paired P r r')
    (hPQ : ∀ a b, r = .ok a → P a b → Q a b) : Paired Q r r' := by
  cases h with
  | done h => exact .done (hPQ _ _ rfl h)
  | refused r => exact .refused r

/-- The case where a prefix operator becomes part of a number, wherever it is not left out. -/
def Folds (fold : Datum → Tree → Option (Option Datum)) : Prop :=
  ∀ op e, fold op e = none ∨ fold op e = foldedNegation? op e

variable {fold fold' : Datum → Tree → Option (Option Datum)} {role : Tree.Role} {t b : Tree}
  {ts : List Tree} {inF : Bool}

/-- A block is analyzed like any other tree. -/
theorem analyzeBlockWith_eq (h : Tree.Shaped Datum.IsInt .block b) :
    analyzeBlockWith fold inF b = analyzeWith fold inF b := by
  cases h with
  | block _ => rw [analyzeBlockWith, analyzeWith]

/-- So is what follows `else`. -/
theorem analyzeWith_ifElse {v : Datum} {c y n : Tree} {s : Option Span}
    (hn : Tree.Shaped Datum.IsInt .branch n) :
    analyzeWith fold inF (.node .ifStmt v [c, y, n] s) = (do
      let condition ← analyzeWith fold inF c
      let yes ← analyzeBlockWith fold inF y
      let no ← analyzeWith fold inF n
      return .ifStmt condition yes (some no) s) := by
  rw [analyzeWith]
  cases hn with
  | elseIf _ => rfl
  | elseBlock hb =>
      rw [analyzeBlockWith_eq hb]
      split <;> rfl

/-- The node of a conditional is one. -/
theorem ifStmt_of_analyzeWith {v : Datum} {cs : List Tree} {s : Option Span} {n : Node}
    (ht : Tree.Shaped Datum.IsInt .statement (.node .ifStmt v cs s))
    (h : analyzeWith fold inF (.node .ifStmt v cs s) = .ok n) : ∃ c y o, n = .ifStmt c y o s := by
  cases ht with
  | ifThen hc hy =>
      rw [analyzeWith] at h
      obtain ⟨c', -, h⟩ := bind_eq_ok h
      obtain ⟨y', -, h⟩ := bind_eq_ok h
      cases h
      exact ⟨c', y', none, rfl⟩
  | ifElse hc hy hn =>
      rw [analyzeWith_ifElse hn] at h
      obtain ⟨c', -, h⟩ := bind_eq_ok h
      obtain ⟨y', -, h⟩ := bind_eq_ok h
      obtain ⟨o', -, h⟩ := bind_eq_ok h
      cases h
      exact ⟨c', y', some o', rfl⟩

/-- The special case does not apply, or it makes a minus sign and an integer one literal. -/
theorem foldedNegation?_cases (op : String) (h : Tree.Shaped Datum.IsInt .expression t) :
    foldedNegation? (.str op) t = none ∨ ∃ i s, op = "-" ∧ t = .node .number (.int i) [] s ∧
      foldedNegation? (.str op) t = some (some (.int (-i))) := by
  unfold foldedNegation?
  split
  · rename_i heq
    cases h with
    | number hd =>
        obtain ⟨i, rfl⟩ := hd
        cases heq
        exact .inr ⟨i, _, rfl, rfl, rfl⟩
  · exact .inl rfl

theorem paired_analyzeAllWith {P : Node → Node → Prop}
    (h : ∀ t ∈ ts, Paired P (analyzeWith fold inF t) (analyzeWith fold' inF t)) :
    Paired (List.Forall₂ P) (analyzeAllWith fold inF ts) (analyzeAllWith fold' inF ts) := by
  induction ts with
  | nil => exact .done .nil
  | cons t ts ih =>
      obtain ⟨ht, hts⟩ := List.forall_mem_cons.mp h
      rw [analyzeAllWith, analyzeAllWith]
      exact ht.bind fun n n' hn => (ih hts).bind fun ns ns' hns => .done (.cons hn hns)

/-- A function, with a name or without. -/
theorem paired_function {ps : List String} {name : Option String} {s : Option Span}
    {make : Node → Node} (hb : Paired (Refolded .block) (analyzeBlockWith fold true b)
      (analyzeBlockWith fold' true b))
    (hmake : ∀ n n', Refolded .block n n' → Refolded role (make n) (make n')) :
    Paired (Refolded role)
      (match firstRepeated? [] ps with
        | some p => refuse (.duplicateParameter p name) s
        | none => do
          let body ← analyzeBlockWith fold true b
          return make body)
      (match firstRepeated? [] ps with
        | some p => refuse (.duplicateParameter p name) s
        | none => do
          let body ← analyzeBlockWith fold' true b
          return make body) := by
  cases firstRepeated? [] ps with
  | some p => exact .refused _
  | none => exact hb.bind fun n n' hn => .done (hmake n n' hn)

/-- **Two analyses that apply the special case or leave it out** refuse the same trees, and make
nodes that differ in whether minus signs are part of literals. -/
theorem paired_analyzeWith (hfold : Folds fold) (hfold' : Folds fold')
    (h : Tree.Shaped Datum.IsInt role t) (hleast : t.AvoidsLeast)
    (inF : Bool) :
    Paired (Refolded role) (analyzeWith fold inF t) (analyzeWith fold' inF t) := by
  induction h generalizing inF with
  | number | string | bool | nil =>
      rw [analyzeWith, analyzeWith]
      exact .done (.congruent .literal)
  | identifier hn =>
      rw [analyzeWith, analyzeWith]
      exact .done (.congruent .identifier)
  | bareReturn =>
      rw [analyzeWith, analyzeWith]
      cases inF with
      | true => exact .done (.congruent .bareReturn)
      | false => exact .refused _
  | elseBlock hb ih =>
      refine (ih hleast inF).map fun n n' _ h => ?_
      cases h.block_congruent with
      | block _ => exact .congruent (.elseBlock h)
  | elseIf hif ih =>
      refine (ih hleast inF).map fun n n' hn h => ?_
      obtain ⟨c, y, o, rfl⟩ := ifStmt_of_analyzeWith hif hn
      cases h.statement_congruent with
      | ifThen _ _ | ifElse _ _ _ => exact .congruent (.elseIf h)
  | @unary op e s hop he ih =>
      have he' := hleast.part (.head _)
      rw [analyzeWith, analyzeWith]
      rcases foldedNegation?_cases op he with hnone | ⟨i, s', rfl, rfl, hsome⟩
      -- here neither analysis applies the special case
      · have h : fold (.str op) e = none := (hfold _ e).elim id (·.trans hnone)
        have h' : fold' (.str op) e = none := (hfold' _ e).elim id (·.trans hnone)
        rw [h, h']
        exact (ih he' inF).bind fun e e' he => .done (.congruent (.unary he))
      · have hi : i.natAbs ≠ 9223372036854775808 :=
          hleast i (by simp [Tree.negatedIntegers, Tree.negated?])
        rcases hfold (.str "-") (.node .number (.int i) [] s') with h | h <;>
          rcases hfold' (.str "-") (.node .number (.int i) [] s') with h' | h' <;>
          simp only [h, h', hsome, analyzeWith]
        · exact .done (.congruent (.unary (.congruent .literal)))
        · exact .done (.folded hi)
        · exact .done (.unfolded hi)
        · exact .done (.congruent .literal)
  | array hes ih =>
      rw [analyzeWith, analyzeWith]
      refine (paired_analyzeAllWith fun t ht => ih t ht (hleast.part ht) inF).bind fun _ _ hes => ?_
      exact .done (.congruent (.array hes))
  | binary hop hl hr ihl ihr =>
      rw [analyzeWith, analyzeWith]
      refine (ihl (hleast.part (.head _)) inF).bind fun l l' hl => ?_
      refine (ihr (hleast.part (.tail _ (.head _))) inF).bind fun r r' hr => ?_
      exact .done (.congruent (.binary hl hr))
  | logical hop hl hr ihl ihr =>
      rw [analyzeWith, analyzeWith]
      refine (ihl (hleast.part (.head _)) inF).bind fun l l' hl => ?_
      refine (ihr (hleast.part (.tail _ (.head _))) inF).bind fun r r' hr => ?_
      exact .done (.congruent (.logical hl hr))
  | call hf hargs ihf ihargs =>
      rw [analyzeWith, analyzeWith]
      refine (ihf (hleast.part (.head _)) inF).bind fun f f' hf => ?_
      have hargs := paired_analyzeAllWith fun t ht => ihargs t ht (hleast.part (.tail _ ht)) inF
      exact hargs.bind fun args args' hargs => .done (.congruent (.call hf hargs))
  | index ht hi iht ihi =>
      rw [analyzeWith, analyzeWith]
      refine (iht (hleast.part (.head _)) inF).bind fun t t' ht => ?_
      refine (ihi (hleast.part (.tail _ (.head _))) inF).bind fun i i' hi => ?_
      exact .done (.congruent (.index ht hi))
  | functionExpr hps hb ih =>
      have hbody := ih (hleast.part (.head _)) true
      rw [← analyzeBlockWith_eq hb, ← analyzeBlockWith_eq hb] at hbody
      simp only [analyzeWith, functionHead?_functionHead]
      exact paired_function hbody fun n n' hn => .congruent (.functionExpr hn)
  | functionDef hn hps hb ih =>
      have hbody := ih (hleast.part (.head _)) true
      rw [← analyzeBlockWith_eq hb, ← analyzeBlockWith_eq hb] at hbody
      simp only [analyzeWith, functionHead?_functionHead]
      exact paired_function hbody fun n n' hn => .congruent (.functionDef hn)
  | letStmt hn he ih =>
      simp only [analyzeWith, letHead?_letHead]
      exact (ih (hleast.part (.head _)) inF).bind fun e e' he => .done (.congruent (.letStmt he))
  | assign hn he ih =>
      rw [analyzeWith, analyzeWith]
      exact (ih (hleast.part (.head _)) inF).bind fun e e' he => .done (.congruent (.assign he))
  | indexAssign ht hi he iht ihi ihe =>
      rw [analyzeWith, analyzeWith]
      refine (iht (hleast.part (.head _)) inF).bind fun t t' ht => ?_
      refine (ihi (hleast.part (.tail _ (.head _))) inF).bind fun i i' hi => ?_
      refine (ihe (hleast.part (.tail _ (.tail _ (.head _)))) inF).bind fun e e' he => ?_
      exact .done (.congruent (.indexAssign ht hi he))
  | ifThen hc hy ihc ihy =>
      rw [analyzeWith, analyzeWith, analyzeBlockWith_eq hy, analyzeBlockWith_eq hy]
      refine (ihc (hleast.part (.head _)) inF).bind fun c c' hc => ?_
      refine (ihy (hleast.part (.tail _ (.head _))) inF).bind fun y y' hy => ?_
      exact .done (.congruent (.ifThen hc hy))
  | ifElse hc hy hn ihc ihy ihn =>
      rw [analyzeWith_ifElse hn, analyzeWith_ifElse hn, analyzeBlockWith_eq hy,
        analyzeBlockWith_eq hy]
      refine (ihc (hleast.part (.head _)) inF).bind fun c c' hc => ?_
      refine (ihy (hleast.part (.tail _ (.head _))) inF).bind fun y y' hy => ?_
      refine (ihn (hleast.part (.tail _ (.tail _ (.head _)))) inF).bind fun n n' hn => ?_
      exact .done (.congruent (.ifElse hc hy hn))
  | whileStmt hc hb ihc ihb =>
      rw [analyzeWith, analyzeWith, analyzeBlockWith_eq hb, analyzeBlockWith_eq hb]
      refine (ihc (hleast.part (.head _)) inF).bind fun c c' hc => ?_
      refine (ihb (hleast.part (.tail _ (.head _))) inF).bind fun b b' hb => ?_
      exact .done (.congruent (.whileStmt hc hb))
  | forStmt hn he hb ihe ihb =>
      rw [analyzeWith, analyzeWith, analyzeBlockWith_eq hb, analyzeBlockWith_eq hb]
      refine (ihe (hleast.part (.head _)) inF).bind fun e e' he => ?_
      refine (ihb (hleast.part (.tail _ (.head _))) inF).bind fun b b' hb => ?_
      exact .done (.congruent (.forStmt he hb))
  | valueReturn he ih =>
      rw [analyzeWith, analyzeWith]
      cases inF with
      | true =>
          refine (ih (hleast.part (.head _)) true).bind fun e e' he => ?_
          exact .done (.congruent (.valueReturn he))
      | false => exact .refused _
  | blockStmt hb ih =>
      rw [analyzeWith, analyzeWith, analyzeBlockWith_eq hb, analyzeBlockWith_eq hb]
      refine (ih (hleast.part (.head _)) inF).map fun n n' _ h => ?_
      cases h.block_congruent with
      | block _ => exact .congruent (.blockStmt h)
  | exprStmt he ih =>
      rw [analyzeWith, analyzeWith]
      exact (ih (hleast.part (.head _)) inF).bind fun e e' he => .done (.congruent (.exprStmt he))
  | block hss ih =>
      rw [analyzeWith, analyzeWith]
      refine (paired_analyzeAllWith fun t ht => ih t ht (hleast.part ht) inF).bind fun _ _ hss => ?_
      exact .done (.congruent (.block hss))

end Analysis

open Analysis (Folds foldedNegation? analyzeAll analyzeAllWith analyzeAllWith_folded
  paired_analyzeAllWith paired_analyzeWith)

/-- A program that is accepted is accepted without the special case as well, with nodes that differ
in whether minus signs are part of literals. -/
theorem refolded_analyzeTrees {ts : List Tree} {ns : List Node}
    (hts : ∀ t ∈ ts, Tree.Shaped Datum.IsInt .statement t) (hleast : ∀ t ∈ ts, t.AvoidsLeast)
    (hns : analyzeTrees ts = .ok ns) :
    ∃ ns', analyzeTreesUnfolded ts = .ok ns' ∧
      List.Forall₂ (Node.Refolded .statement) ns ns' ∧
        List.Forall₂ (Node.Refolded .statement) ns' ns := by
  have hpaired {fold fold' : Datum → Tree → Option (Option Datum)} (h : Folds fold)
      (h' : Folds fold') := paired_analyzeAllWith fun t ht =>
    paired_analyzeWith h h' (hts t ht) (hleast t ht) false
  have hfolded : Folds foldedNegation? := fun _ _ => .inr rfl
  have hunfolded : Folds fun _ _ => none := fun _ _ => .inl rfl
  have hthere := hpaired hfolded hunfolded
  have hback := hpaired hunfolded hfolded
  unfold analyzeTreesUnfolded
  unfold analyzeTrees at hns
  rw [analyzeAllWith_folded] at hthere hback
  generalize analyzeAll false ts = r at hthere hback hns
  generalize analyzeAllWith (fun _ _ => none) false ts = r' at hthere hback
  cases hthere with
  | refused _ => cases hns
  | done hthere =>
      cases hns
      cases hback with
      | done hback => exact ⟨_, rfl, hthere, hback⟩

end Ember

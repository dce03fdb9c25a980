import Ember.Analysis
import Ember.Proofs.Grammar.Yields
import Ember.Proofs.Node.Formed

/-!
# Analysis — well-shaped trees make well-formed nodes

On a well-shaped tree the analysis finds every part and payload that it looks for, so it can refuse
it for two reasons only: a parameter that occurs twice and a return outside of every function. The
nodes it makes have all their parts, and returns stand inside functions.

* `SemanticsFault.OfPrograms`: the reasons that are the program's.
* `Analysis.analyze_admits`: what the analysis makes of a tree, role by role.
* `analyzeTrees_formed`: what it makes of a program.
-/

namespace Ember

/-- The faults that well-shaped trees can have. -/
def SemanticsFault.OfPrograms : SemanticsFault → Prop
  | duplicateParameter _ _ | returnOutside => True
  | unknownNode _ | notATree _ | malformed _ => False

namespace Analysis

variable {α β : Type}

/-- The analysis succeeds with something that satisfies `P`, or finds a fault of the program. -/
def Admits (r : Result α) (P : α → Prop) : Prop :=
  match r with
  | .ok a => P a
  | .error e => e.fault.OfPrograms

/-- Two steps of the analysis end well if the first does and the second does on whatever the first
gives. -/
theorem Admits.bind {r : Result α} {f : α → Result β} {P : α → Prop} {Q : β → Prop}
    (h : Admits r P) (hf : ∀ a, P a → Admits (f a) Q) : Admits (r >>= f) Q := by
  cases r with
  | ok a => exact hf a h
  | error e => exact h

theorem Admits.mono {r : Result α} {P Q : α → Prop} (h : Admits r P) (hPQ : ∀ a, P a → Q a) :
    Admits r Q := by
  cases r with
  | ok a => exact hPQ a h
  | error e => exact h

/-- What an analysis gives is as it should be. -/
theorem Admits.of_ok {r : Result α} {P : α → Prop} {a : α} (h : Admits r P) (ha : r = .ok a) :
    P a := by
  rw [ha] at h
  exact h

/-- The node of a branch: a conditional if it is one, and otherwise a block. -/
def analyzeBranch (inF : Bool) (t : Tree) : Result Node :=
  if t.kind? = some .ifStmt then analyze inF t else analyzeBlock inF t

/-- An `if` with an `else` is analyzed condition first, then the two branches in order. -/
theorem analyze_ifElse {inF : Bool} {v : Datum} {c y n : Tree} {cs : List Tree}
    {s : Option Span} : analyze inF (.node .ifStmt v (c :: y :: n :: cs) s) = (do
      let condition ← analyze inF c
      let yes ← analyzeBlock inF y
      let no ← analyzeBranch inF n
      return .ifStmt condition yes (some no) s) := by
  rw [analyze, analyzeBranch]
  split <;> rfl

/-- What the analysis makes of a tree that takes a role. -/
def Analyzed (inF : Bool) (t : Tree) : Tree.Role → Prop
  | .expression => Admits (analyze inF t) (Node.Formed .expression)
  | .statement => Admits (analyze inF t) (Node.Formed (.statement inF))
  | .block => Admits (analyzeBlock inF t) (Node.Formed (.block inF))
  | .branch => Admits (analyzeBranch inF t) (Node.Formed (.branch inF))

/-- If each tree of a list is analyzed well, the list is, and each node has the property of its
tree. -/
theorem analyzeAll_admits {inF : Bool} {ts : List Tree} {P : Node → Prop}
    (h : ∀ t ∈ ts, Admits (analyze inF t) P) :
    Admits (analyzeAll inF ts) fun ns => ∀ n ∈ ns, P n := by
  induction ts with
  | nil => exact fun _ hn => absurd hn List.not_mem_nil
  | cons t ts ih =>
      rw [analyzeAll]
      refine (h t List.mem_cons_self).bind fun n hn => ?_
      refine (ih fun u hu => h u (List.mem_cons_of_mem _ hu)).bind fun ns hns => ?_
      exact List.forall_mem_cons.mpr ⟨hn, hns⟩

/-- The analysis reads the head of a function as the grammar wrote it. -/
theorem functionHead?_functionHead (d : Datum) (ps : List String) :
    functionHead? (Grammar.functionHead d ps) = some (optionalName d, ps) := by
  simp [functionHead?, Grammar.functionHead, Datum.field?, Function.comp_def, Datum.bare]

/-- The analysis reads the head of a declaration as the grammar wrote it. -/
theorem letHead?_letHead (n : String) (m : Bool) : letHead? (Tree.letHead n m) = some (n, m) := by
  simp [letHead?, Tree.letHead, Datum.field?, Datum.bare, Datum.truthy]

/-- The analysis knows every binary operator the grammar can read. -/
theorem strictOperators_known {op : String} (h : op ∈ Tree.strictOperators) :
    (binaryOperator? op).isSome := by
  simp only [Tree.strictOperators, List.mem_cons, List.not_mem_nil, or_false] at h
  rcases h with rfl | rfl | rfl | rfl | rfl | rfl | rfl | rfl | rfl | rfl | rfl <;> rfl

/-- The analysis knows every logical operator the grammar can read. -/
theorem lazyOperators_known {op : String} (h : op ∈ Tree.lazyOperators) :
    (decisive? op).isSome := by
  simp only [Tree.lazyOperators, List.mem_cons, List.not_mem_nil, or_false] at h
  rcases h with rfl | rfl <;> rfl

/-- The analysis knows every prefix operator the grammar can read. -/
theorem prefixOperators_known {op : String} (h : op ∈ Grammar.prefixOperators) :
    (unaryOperator? op).isSome := by
  simp only [Grammar.prefixOperators, List.mem_cons, List.not_mem_nil, or_false] at h
  rcases h with rfl | rfl <;> rfl

/-- A number has an opposite. -/
theorem negated?_isSome {d : Datum} (h : Grammar.IsNumber d) : (negated? d).isSome := by
  rcases h with ⟨i, rfl⟩ | ⟨x, rfl⟩ <;> rfl

/-- A minus sign can be made part of the number after it. -/
theorem foldedNegation?_ne {op : Datum} {e : Tree}
    (h : Tree.Shaped Grammar.IsNumber .expression e) : foldedNegation? op e ≠ some none := by
  unfold foldedNegation?
  split
  · cases h with
    | number hd => simp [Option.ne_none_iff_isSome.mpr (negated?_isSome hd)]
  · simp

/-- Two steps of the analysis succeed only if both do. -/
theorem bind_eq_ok {r : Result α} {f : α → Result β} {b : β} (h : (r >>= f) = .ok b) :
    ∃ a, r = .ok a ∧ f a = .ok b := by
  cases r with
  | ok a => exact ⟨a, rfl, h⟩
  | error e => cases h

/-- The node of a conditional is one. -/
theorem analyze_ifStmt {inF : Bool} {v : Datum} {cs : List Tree} {s : Option Span} {n : Node}
    (h : analyze inF (.node .ifStmt v cs s) = .ok n) : ∃ c y o, n = .ifStmt c y o s := by
  rcases cs with _ | ⟨c, _ | ⟨y, _ | ⟨o, cs⟩⟩⟩
  · simp [analyze, refuse] at h
  · simp [analyze, refuse] at h
  · rw [analyze] at h
    obtain ⟨c', -, h⟩ := bind_eq_ok h
    obtain ⟨y', -, h⟩ := bind_eq_ok h
    cases h
    exact ⟨c', y', none, rfl⟩
  · rw [analyze_ifElse] at h
    obtain ⟨c', -, h⟩ := bind_eq_ok h
    obtain ⟨y', -, h⟩ := bind_eq_ok h
    obtain ⟨o', -, h⟩ := bind_eq_ok h
    cases h
    exact ⟨c', y', some o', rfl⟩

/-- A function, with a name or without. -/
theorem admits_function {ps : List String} {name : Option String} {s : Option Span} {b : Tree}
    {make : Node → Node} {P Q : Node → Prop} (hb : Admits (analyzeBlock true b) P)
    (hmake : ∀ n : Node, P n → Q (make n)) :
    Admits (match firstRepeated? [] ps with
      | some p => refuse (.duplicateParameter p name) s
      | none => do
        let body ← analyzeBlock true b
        return make body) Q := by
  cases firstRepeated? [] ps with
  | some p => exact trivial
  | none => exact hb.bind fun n hn => hmake n hn

/-- A shaped tree is analyzed to a node of its role, or refused with an error of the analysis; by
induction on the shape. -/
theorem analyze_admits {role : Tree.Role} {t : Tree} (h : Tree.Shaped Grammar.IsNumber role t)
    (inF : Bool) : Analyzed inF t role := by
  induction h generalizing inF with
  | number | string | bool | nil =>
      simp only [Analyzed, analyze]
      exact .literal
  | identifier hn =>
      simp only [Analyzed, analyze]
      exact .identifier
  | array hes ih =>
      simp only [Analyzed, analyze]
      exact (analyzeAll_admits fun t ht => ih t ht inF).bind fun ns hns => .array hns
  | binary hop hl hr ihl ihr =>
      simp only [Analyzed, analyze]
      refine Admits.bind (ihl inF) fun l hl => Admits.bind (ihr inF) fun r hr => ?_
      exact .binary (strictOperators_known hop) hl hr
  | logical hop hl hr ihl ihr =>
      simp only [Analyzed, analyze]
      refine Admits.bind (ihl inF) fun l hl => Admits.bind (ihr inF) fun r hr => ?_
      exact .logical (lazyOperators_known hop) hl hr
  | unary hop he ih =>
      simp only [Analyzed, analyze]
      -- a minus before a number is folded into the number, which cannot fail
      split
      · exact .literal
      · rename_i hnone
        exact absurd hnone (foldedNegation?_ne he)
      · exact Admits.bind (ih inF) fun e he => .unary (prefixOperators_known hop) he
  | call hf hargs ihf ihargs =>
      simp only [Analyzed, analyze]
      refine Admits.bind (ihf inF) fun f hf => ?_
      exact (analyzeAll_admits fun t ht => ihargs t ht inF).bind fun ns hns => .call hf hns
  | index ht hi iht ihi =>
      simp only [Analyzed, analyze]
      exact Admits.bind (iht inF) fun t ht => Admits.bind (ihi inF) fun i hi => .index ht hi
  | functionExpr hps hb ih =>
      simp only [Analyzed, analyze, functionHead?_functionHead]
      exact admits_function (ih true) fun n hn => .functionExpr hn
  | functionDef hn hps hb ih =>
      simp only [Analyzed, analyze, functionHead?_functionHead]
      exact admits_function (ih true) fun n hn => .functionDef hn
  | letStmt hn he ih =>
      simp only [Analyzed, analyze, letHead?_letHead]
      exact Admits.bind (ih inF) fun e he => .letStmt he
  | assign hn he ih =>
      simp only [Analyzed, analyze]
      exact Admits.bind (ih inF) fun e he => .assign he
  | indexAssign ht hi he iht ihi ihe =>
      simp only [Analyzed, analyze]
      refine Admits.bind (iht inF) fun t ht => Admits.bind (ihi inF) fun i hi => ?_
      exact Admits.bind (ihe inF) fun e he => .indexAssign ht hi he
  | ifThen hc hy ihc ihy =>
      simp only [Analyzed, analyze]
      exact Admits.bind (ihc inF) fun c hc => Admits.bind (ihy inF) fun y hy => .ifThen hc hy
  | ifElse hc hy hn ihc ihy ihn =>
      simp only [Analyzed, analyze_ifElse]
      refine Admits.bind (ihc inF) fun c hc => Admits.bind (ihy inF) fun y hy => ?_
      exact Admits.bind (ihn inF) fun n hn => .ifElse hc hy hn
  | whileStmt hc hb ihc ihb =>
      simp only [Analyzed, analyze]
      exact Admits.bind (ihc inF) fun c hc => Admits.bind (ihb inF) fun b hb => .whileStmt hc hb
  | forStmt hn he hb ihe ihb =>
      simp only [Analyzed, analyze]
      exact Admits.bind (ihe inF) fun e he => Admits.bind (ihb inF) fun b hb => .forStmt he hb
  | bareReturn =>
      simp only [Analyzed, analyze]
      cases inF with
      | true => exact .bareReturn
      | false => exact trivial
  | valueReturn he ih =>
      simp only [Analyzed, analyze]
      cases inF with
      | true => exact Admits.bind (ih true) fun e he => .valueReturn he
      | false => exact trivial
  | blockStmt hb ih =>
      simp only [Analyzed, analyze]
      refine Admits.mono (ih inF) fun b hb => ?_
      cases hb with | block hss => exact .blockStmt hss
  | exprStmt he ih =>
      simp only [Analyzed, analyze]
      exact Admits.bind (ih inF) fun e he => .exprStmt he
  | block hss ih =>
      simp only [Analyzed, analyzeBlock]
      exact (analyzeAll_admits fun t ht => ih t ht inF).bind fun ns hns => .block hns
  | elseBlock hb ih =>
      have hanalyzed := ih inF
      cases hb with
      | block hss =>
          simp only [Analyzed, analyzeBranch] at hanalyzed ⊢
          rw [if_neg (by simp [Tree.kind?])]
          refine hanalyzed.mono fun b hb => ?_
          cases hb with | block hss => exact .elseBlock hss
  | @elseIf cs s h ih =>
      have hanalyzed := ih inF
      simp only [Analyzed, analyzeBranch, Tree.kind?, if_true] at hanalyzed ⊢
      -- only the node of a conditional may follow `else` without a block
      cases hresult : analyze inF (.node .ifStmt .null cs s) with
      | error e =>
          rw [hresult] at hanalyzed
          exact hanalyzed
      | ok n =>
          rw [hresult] at hanalyzed
          obtain ⟨c, y, o, rfl⟩ := analyze_ifStmt hresult
          exact .elseIf hanalyzed

end Analysis

/-- A program is accepted if all its statements are. -/
theorem analyzeTrees_eq_ok {ts : List Tree} {ns : List Node} :
    analyzeTrees ts = .ok ns ↔ Analysis.analyzeAll false ts = .ok ns := by
  rw [analyzeTrees]
  cases Analysis.analyzeAll false ts with
  | ok ks => simp [Except.mapError]
  | error r => simp [Except.mapError]

/-- **Well-shaped programs** are refused only for faults of their own, and what they are analyzed to
is well-formed. -/
theorem analyzeTrees_formed {ts : List Tree}
    (h : ∀ t ∈ ts, Tree.Shaped Grammar.IsNumber .statement t) :
    match analyzeTrees ts with
    | .ok ns => ∀ n ∈ ns, n.Formed (.statement false)
    | .error e => ∃ r : Analysis.Refusal, e = r.error ∧ r.fault.OfPrograms := by
  have hall : Analysis.Admits (Analysis.analyzeAll false ts)
      fun ns => ∀ n ∈ ns, n.Formed (.statement false) :=
    Analysis.analyzeAll_admits fun t ht => Analysis.analyze_admits (h t ht) false
  unfold analyzeTrees
  cases hresult : Analysis.analyzeAll false ts with
  | ok ns =>
      rw [hresult] at hall
      exact hall
  | error r =>
      rw [hresult] at hall
      exact ⟨r, rfl, hall⟩

end Ember

import Ember.Eval

/-!
# Node — well-formed nodes

A node can be put together by hand in ways that make no program. `Node.Formed` is the class of
those that do: every part is there and is of the kind that its place asks for, every operator
exists, and a return stands inside a function.

* `Node.Role`: what a node stands for where it occurs.
* `Node.Formed`: the nodes that can take a role.
* `Node.declared?`: the name that a statement binds in the frame it is executed in.
-/

namespace Ember.Node

/-- What a node stands for where it occurs. Statements, blocks and the branches of conditionals
may return if they are inside a function. -/
inductive Role where
  | expression
  | statement (inFunction : Bool)
  | block (inFunction : Bool)
  | branch (inFunction : Bool)
deriving DecidableEq, Repr

/-- The nodes that can take a role. -/
inductive Formed : Role → Node → Prop where
  | literal {d : Datum} {k : Kind} {s : Option Span} : Formed .expression (.literal d k s)
  | identifier {n : String} {s : Option Span} : Formed .expression (.identifier n s)
  | array {es : List Node} {s : Option Span} (hes : ∀ e ∈ es, Formed .expression e) :
      Formed .expression (.array es s)
  | binary {op : String} {l r : Node} {s : Option Span} (hop : (binaryOperator? op).isSome)
      (hl : Formed .expression l) (hr : Formed .expression r) :
      Formed .expression (.binary op l r s)
  | logical {op : String} {l r : Node} {s : Option Span} (hop : (decisive? op).isSome)
      (hl : Formed .expression l) (hr : Formed .expression r) :
      Formed .expression (.logical op l r s)
  | unary {op : String} {e : Node} {s : Option Span} (hop : (unaryOperator? op).isSome)
      (he : Formed .expression e) : Formed .expression (.unary op e s)
  | call {f : Node} {args : List Node} {s : Option Span} (hf : Formed .expression f)
      (hargs : ∀ a ∈ args, Formed .expression a) : Formed .expression (.call f args s)
  | index {t i : Node} {s : Option Span} (ht : Formed .expression t)
      (hi : Formed .expression i) : Formed .expression (.index t i s)
  | functionExpr {n : Option String} {ps : List String} {b : Node} {s : Option Span}
      (hb : Formed (.block true) b) : Formed .expression (.functionExpr n ps b s)
  | functionDef {inF : Bool} {n : String} {ps : List String} {b : Node} {s : Option Span}
      (hb : Formed (.block true) b) : Formed (.statement inF) (.functionDef n ps b s)
  | letStmt {inF : Bool} {n : String} {m : Bool} {e : Node} {s : Option Span}
      (he : Formed .expression e) : Formed (.statement inF) (.letStmt n m e s)
  | assign {inF : Bool} {n : String} {e : Node} {s : Option Span}
      (he : Formed .expression e) : Formed (.statement inF) (.assign n e s)
  | indexAssign {inF : Bool} {t i e : Node} {s : Option Span} (ht : Formed .expression t)
      (hi : Formed .expression i) (he : Formed .expression e) :
      Formed (.statement inF) (.indexAssign t i e s)
  | ifThen {inF : Bool} {c y : Node} {s : Option Span} (hc : Formed .expression c)
      (hy : Formed (.block inF) y) : Formed (.statement inF) (.ifStmt c y none s)
  | ifElse {inF : Bool} {c y n : Node} {s : Option Span} (hc : Formed .expression c)
      (hy : Formed (.block inF) y) (hn : Formed (.branch inF) n) :
      Formed (.statement inF) (.ifStmt c y (some n) s)
  | whileStmt {inF : Bool} {c b : Node} {s : Option Span} (hc : Formed .expression c)
      (hb : Formed (.block inF) b) : Formed (.statement inF) (.whileStmt c b s)
  | forStmt {inF : Bool} {v : String} {e b : Node} {s : Option Span} (he : Formed .expression e)
      (hb : Formed (.block inF) b) : Formed (.statement inF) (.forStmt v e b s)
  | bareReturn {s : Option Span} : Formed (.statement true) (.returnStmt none s)
  | valueReturn {e : Node} {s : Option Span} (he : Formed .expression e) :
      Formed (.statement true) (.returnStmt (some e) s)
  | blockStmt {inF : Bool} {ss : List Node} {s : Option Span}
      (hss : ∀ n ∈ ss, Formed (.statement inF) n) : Formed (.statement inF) (.block ss s)
  | exprStmt {inF : Bool} {e : Node} {s : Option Span} (he : Formed .expression e) :
      Formed (.statement inF) (.exprStmt e s)
  | block {inF : Bool} {ss : List Node} {s : Option Span}
      (hss : ∀ n ∈ ss, Formed (.statement inF) n) : Formed (.block inF) (.block ss s)
  | elseBlock {inF : Bool} {ss : List Node} {s : Option Span}
      (hss : ∀ n ∈ ss, Formed (.statement inF) n) : Formed (.branch inF) (.block ss s)
  | elseIf {inF : Bool} {c y : Node} {n : Option Node} {s : Option Span}
      (h : Formed (.statement inF) (.ifStmt c y n s)) : Formed (.branch inF) (.ifStmt c y n s)

/-- The name that a statement binds in the frame it is executed in. -/
def declared? : Node → Option String
  | letStmt n _ _ _ | functionDef n _ _ _ => some n
  | _ => none

end Ember.Node

import Ember.Grammar.Expression

/-!
# Tree — well-shaped trees

A tree can be put together by hand in ways that no text is read as. `Tree.Shaped` is the class of
those that have the shape the grammar gives them: each kind of node has the parts and the payload
of its kind, operators are operators of the language, and names are names. What numbers may denote
is left to the user of the class.

* `Lexeme.IsWord`, `Lexeme.IsName`: the words and the names of the language.
* `Tree.Role`: what a tree stands for where it occurs.
* `Tree.Shaped`: the trees that can take a role.
-/

namespace Ember

/-- A word: the characters of a name, or of a keyword. -/
def Lexeme.IsWord (n : String) : Prop :=
  ∃ x xs, n.toList = x :: xs ∧ Text.isNameStart x ∧ ∀ y ∈ xs, Text.isNameChar y

/-- A name of the language: a word that is no keyword. -/
structure Lexeme.IsName (n : String) : Prop where
  word : IsWord n
  free : n ∉ keywords

namespace Tree

/-- What a tree stands for where it occurs. A branch is what follows `else`. -/
inductive Role where
  | expression
  | statement
  | block
  | branch
deriving DecidableEq, Repr

/-- The binary operators that always evaluate both operands. -/
def strictOperators : List String :=
  ["==", "!=", "<=", ">=", "<", ">", "+", "-", "*", "/", "%"]

/-- The binary operators that may leave their right operand alone. -/
def lazyOperators : List String := ["||", "&&"]

/-- The payload of a binding. -/
def letHead (name : String) (mutable : Bool) : Datum :=
  .record [("name", .str name), ("mutable", .bool mutable)]

variable (Num : Datum → Prop)

/-- The trees that can take a role, if numbers denote what `Num` holds of. -/
inductive Shaped : Role → Tree → Prop where
  | number {d : Datum} {s : Option Span} (hd : Num d) : Shaped .expression (.node .number d [] s)
  | string {t : String} {s : Option Span} : Shaped .expression (.node .string (.str t) [] s)
  | bool {b : Bool} {s : Option Span} : Shaped .expression (.node .bool (.bool b) [] s)
  | nil {s : Option Span} : Shaped .expression (.node .nil .null [] s)
  | identifier {n : String} {s : Option Span} (hn : Lexeme.IsName n) :
      Shaped .expression (.node .identifier (.str n) [] s)
  | array {es : List Tree} {s : Option Span} (hes : ∀ e ∈ es, Shaped .expression e) :
      Shaped .expression (.node .array .null es s)
  | binary {op : String} {l r : Tree} {s : Option Span} (hop : op ∈ strictOperators)
      (hl : Shaped .expression l) (hr : Shaped .expression r) :
      Shaped .expression (.node .binary (.str op) [l, r] s)
  | logical {op : String} {l r : Tree} {s : Option Span} (hop : op ∈ lazyOperators)
      (hl : Shaped .expression l) (hr : Shaped .expression r) :
      Shaped .expression (.node .logical (.str op) [l, r] s)
  | unary {op : String} {e : Tree} {s : Option Span} (hop : op ∈ Grammar.prefixOperators)
      (he : Shaped .expression e) : Shaped .expression (.node .unary (.str op) [e] s)
  | call {f : Tree} {args : List Tree} {s : Option Span} (hf : Shaped .expression f)
      (hargs : ∀ a ∈ args, Shaped .expression a) :
      Shaped .expression (.node .call .null (f :: args) s)
  | index {t i : Tree} {s : Option Span} (ht : Shaped .expression t)
      (hi : Shaped .expression i) : Shaped .expression (.node .index .null [t, i] s)
  | functionExpr {ps : List String} {b : Tree} {s : Option Span}
      (hps : ∀ p ∈ ps, Lexeme.IsName p) (hb : Shaped .block b) :
      Shaped .expression (.node .functionExpr (Grammar.functionHead .null ps) [b] s)
  | functionDef {n : String} {ps : List String} {b : Tree} {s : Option Span}
      (hn : Lexeme.IsName n) (hps : ∀ p ∈ ps, Lexeme.IsName p) (hb : Shaped .block b) :
      Shaped .statement (.node .functionDef (Grammar.functionHead (.str n) ps) [b] s)
  | letStmt {n : String} {m : Bool} {e : Tree} {s : Option Span} (hn : Lexeme.IsName n)
      (he : Shaped .expression e) : Shaped .statement (.node .letStmt (letHead n m) [e] s)
  | assign {n : String} {e : Tree} {s : Option Span} (hn : Lexeme.IsName n)
      (he : Shaped .expression e) : Shaped .statement (.node .assign (.str n) [e] s)
  | indexAssign {t i e : Tree} {s : Option Span} (ht : Shaped .expression t)
      (hi : Shaped .expression i) (he : Shaped .expression e) :
      Shaped .statement (.node .indexAssign .null [t, i, e] s)
  | ifThen {c y : Tree} {s : Option Span} (hc : Shaped .expression c) (hy : Shaped .block y) :
      Shaped .statement (.node .ifStmt .null [c, y] s)
  | ifElse {c y n : Tree} {s : Option Span} (hc : Shaped .expression c) (hy : Shaped .block y)
      (hn : Shaped .branch n) : Shaped .statement (.node .ifStmt .null [c, y, n] s)
  | whileStmt {c b : Tree} {s : Option Span} (hc : Shaped .expression c) (hb : Shaped .block b) :
      Shaped .statement (.node .whileStmt .null [c, b] s)
  | forStmt {n : String} {e b : Tree} {s : Option Span} (hn : Lexeme.IsName n)
      (he : Shaped .expression e) (hb : Shaped .block b) :
      Shaped .statement (.node .forStmt (.str n) [e, b] s)
  | bareReturn {s : Option Span} : Shaped .statement (.node .returnStmt .null [] s)
  | valueReturn {e : Tree} {s : Option Span} (he : Shaped .expression e) :
      Shaped .statement (.node .returnStmt .null [e] s)
  | blockStmt {b : Tree} {s : Option Span} (hb : Shaped .block b) :
      Shaped .statement (.node .blockStmt .null [b] s)
  | exprStmt {e : Tree} {s : Option Span} (he : Shaped .expression e) :
      Shaped .statement (.node .exprStmt .null [e] s)
  | block {ss : List Tree} {s : Option Span} (hss : ∀ t ∈ ss, Shaped .statement t) :
      Shaped .block (.node .block .null ss s)
  | elseBlock {b : Tree} (hb : Shaped .block b) : Shaped .branch b
  | elseIf {cs : List Tree} {s : Option Span} (h : Shaped .statement (.node .ifStmt .null cs s)) :
      Shaped .branch (.node .ifStmt .null cs s)

end Tree

end Ember

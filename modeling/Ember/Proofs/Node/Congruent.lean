import Mathlib.Data.List.Forall2
import Ember.Node
import Ember.Proofs.Tree.Shaped

/-!
# Node — nodes with related parts

Programs that differ in some nodes differ everywhere above them as well, but there only in parts. A
node is congruent to another one if it differs from it in parts at most, and these are related.

* `Node.Congruent`: nodes that are the same but for related parts, by what they stand for.
* `Node.Congruent.flip`: the same, seen from the other node.
-/

namespace Ember.Node

/-- Nodes of the same kind, at the same place and with the same names and operators, whose parts are
related, by what they stand for. -/
inductive Congruent (R : Tree.Role → Node → Node → Prop) : Tree.Role → Node → Node → Prop where
  | literal {d : Datum} {k : Kind} {s : Option Span} :
      Congruent R .expression (.literal d k s) (.literal d k s)
  | identifier {n : String} {s : Option Span} :
      Congruent R .expression (.identifier n s) (.identifier n s)
  | array {es es' : List Node} {s : Option Span} (hes : List.Forall₂ (R .expression) es es') :
      Congruent R .expression (.array es s) (.array es' s)
  | binary {op : String} {l l' r r' : Node} {s : Option Span} (hl : R .expression l l')
      (hr : R .expression r r') : Congruent R .expression (.binary op l r s) (.binary op l' r' s)
  | logical {op : String} {l l' r r' : Node} {s : Option Span} (hl : R .expression l l')
      (hr : R .expression r r') : Congruent R .expression (.logical op l r s) (.logical op l' r' s)
  | unary {op : String} {e e' : Node} {s : Option Span} (he : R .expression e e') :
      Congruent R .expression (.unary op e s) (.unary op e' s)
  | call {f f' : Node} {args args' : List Node} {s : Option Span} (hf : R .expression f f')
      (hargs : List.Forall₂ (R .expression) args args') :
      Congruent R .expression (.call f args s) (.call f' args' s)
  | index {t t' i i' : Node} {s : Option Span} (ht : R .expression t t')
      (hi : R .expression i i') : Congruent R .expression (.index t i s) (.index t' i' s)
  | functionExpr {n : Option String} {ps : List String} {b b' : Node} {s : Option Span}
      (hb : R .block b b') :
      Congruent R .expression (.functionExpr n ps b s) (.functionExpr n ps b' s)
  | functionDef {n : String} {ps : List String} {b b' : Node} {s : Option Span}
      (hb : R .block b b') :
      Congruent R .statement (.functionDef n ps b s) (.functionDef n ps b' s)
  | letStmt {n : String} {m : Bool} {e e' : Node} {s : Option Span} (he : R .expression e e') :
      Congruent R .statement (.letStmt n m e s) (.letStmt n m e' s)
  | assign {n : String} {e e' : Node} {s : Option Span} (he : R .expression e e') :
      Congruent R .statement (.assign n e s) (.assign n e' s)
  | indexAssign {t t' i i' e e' : Node} {s : Option Span} (ht : R .expression t t')
      (hi : R .expression i i') (he : R .expression e e') :
      Congruent R .statement (.indexAssign t i e s) (.indexAssign t' i' e' s)
  | ifThen {c c' y y' : Node} {s : Option Span} (hc : R .expression c c') (hy : R .block y y') :
      Congruent R .statement (.ifStmt c y none s) (.ifStmt c' y' none s)
  | ifElse {c c' y y' n n' : Node} {s : Option Span} (hc : R .expression c c')
      (hy : R .block y y') (hn : R .branch n n') :
      Congruent R .statement (.ifStmt c y (some n) s) (.ifStmt c' y' (some n') s)
  | whileStmt {c c' b b' : Node} {s : Option Span} (hc : R .expression c c')
      (hb : R .block b b') : Congruent R .statement (.whileStmt c b s) (.whileStmt c' b' s)
  | forStmt {x : String} {e e' b b' : Node} {s : Option Span} (he : R .expression e e')
      (hb : R .block b b') : Congruent R .statement (.forStmt x e b s) (.forStmt x e' b' s)
  | bareReturn {s : Option Span} :
      Congruent R .statement (.returnStmt none s) (.returnStmt none s)
  | valueReturn {e e' : Node} {s : Option Span} (he : R .expression e e') :
      Congruent R .statement (.returnStmt (some e) s) (.returnStmt (some e') s)
  | exprStmt {e e' : Node} {s : Option Span} (he : R .expression e e') :
      Congruent R .statement (.exprStmt e s) (.exprStmt e' s)
  | blockStmt {ss ss' : List Node} {s : Option Span} (h : R .block (.block ss s) (.block ss' s)) :
      Congruent R .statement (.block ss s) (.block ss' s)
  | block {ss ss' : List Node} {s : Option Span} (hss : List.Forall₂ (R .statement) ss ss') :
      Congruent R .block (.block ss s) (.block ss' s)
  | elseBlock {ss ss' : List Node} {s : Option Span} (h : R .block (.block ss s) (.block ss' s)) :
      Congruent R .branch (.block ss s) (.block ss' s)
  | elseIf {c c' y y' : Node} {n n' : Option Node} {s : Option Span}
      (h : R .statement (.ifStmt c y n s) (.ifStmt c' y' n' s)) :
      Congruent R .branch (.ifStmt c y n s) (.ifStmt c' y' n' s)

variable {R R' : Tree.Role → Node → Node → Prop} {role : Tree.Role} {n n' : Node}

/-- What relates the parts relates them the other way round as well. -/
theorem Congruent.flip (hR : ∀ role n n', R role n n' → R' role n' n)
    (h : Congruent R role n n') : Congruent R' role n' n := by
  have hall {role : Tree.Role} {ns ns' : List Node} (h : List.Forall₂ (R role) ns ns') :
      List.Forall₂ (R' role) ns' ns := h.flip.imp fun _ _ => hR _ _ _
  cases h with
  | literal => exact .literal
  | identifier => exact .identifier
  | array hes => exact .array (hall hes)
  | binary hl hr => exact .binary (hR _ _ _ hl) (hR _ _ _ hr)
  | logical hl hr => exact .logical (hR _ _ _ hl) (hR _ _ _ hr)
  | unary he => exact .unary (hR _ _ _ he)
  | call hf hargs => exact .call (hR _ _ _ hf) (hall hargs)
  | index ht hi => exact .index (hR _ _ _ ht) (hR _ _ _ hi)
  | functionExpr hb => exact .functionExpr (hR _ _ _ hb)
  | functionDef hb => exact .functionDef (hR _ _ _ hb)
  | letStmt he => exact .letStmt (hR _ _ _ he)
  | assign he => exact .assign (hR _ _ _ he)
  | indexAssign ht hi he => exact .indexAssign (hR _ _ _ ht) (hR _ _ _ hi) (hR _ _ _ he)
  | ifThen hc hy => exact .ifThen (hR _ _ _ hc) (hR _ _ _ hy)
  | ifElse hc hy hn => exact .ifElse (hR _ _ _ hc) (hR _ _ _ hy) (hR _ _ _ hn)
  | whileStmt hc hb => exact .whileStmt (hR _ _ _ hc) (hR _ _ _ hb)
  | forStmt he hb => exact .forStmt (hR _ _ _ he) (hR _ _ _ hb)
  | bareReturn => exact .bareReturn
  | valueReturn he => exact .valueReturn (hR _ _ _ he)
  | exprStmt he => exact .exprStmt (hR _ _ _ he)
  | blockStmt hb => exact .blockStmt (hR _ _ _ hb)
  | block hss => exact .block (hall hss)
  | elseBlock hb => exact .elseBlock (hR _ _ _ hb)
  | elseIf hif => exact .elseIf (hR _ _ _ hif)

/-- Parts that are related in one way are related in a weaker one. -/
theorem Congruent.mono (hR : ∀ role n n', R role n n' → R' role n n')
    (h : Congruent R role n n') : Congruent R' role n n' := by
  have hflip : Congruent (fun role n' n => R' role n n') role n' n := h.flip hR
  exact hflip.flip fun _ _ _ => id

end Ember.Node

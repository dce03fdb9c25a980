import Ember.Proofs.Node.Alike
import Ember.Proofs.Node.Congruent

/-!
# Node — statements after a return

A list of statements is run up to its first return. What stands after it can be left out, in every
block and in every function, however deep these are inside others.

* `Node.upToReturn`: a list of statements up to its first return.
* `Node.live`: a node without statements that follow a return in their list.
* `Node.SameLive`: nodes that differ in such statements only.
* `Node.kindred_live`: every well-formed node is related in this way to what is left of it.
-/

namespace Ember.Node

/-! ### What is left -/

/-- The statement is a return. -/
def isReturn : Node → Bool
  | returnStmt .. => true
  | _ => false

/-- Statements up to the first return. -/
def upToReturn : List Node → List Node
  | [] => []
  | n :: ns => n :: if n.isReturn then [] else upToReturn ns

mutual

/-- A node without the statements in it that follow a return in their list. -/
def live : Node → Node
  | array es s => array (liveAll es) s
  | binary op l r s => binary op (live l) (live r) s
  | logical op l r s => logical op (live l) (live r) s
  | unary op e s => unary op (live e) s
  | call f args s => call (live f) (liveAll args) s
  | index t i s => index (live t) (live i) s
  | functionExpr n ps b s => functionExpr n ps (live b) s
  | functionDef n ps b s => functionDef n ps (live b) s
  | letStmt n m e s => letStmt n m (live e) s
  | assign n e s => assign n (live e) s
  | indexAssign t i e s => indexAssign (live t) (live i) (live e) s
  | ifStmt c y none s => ifStmt (live c) (live y) none s
  | ifStmt c y (some n) s => ifStmt (live c) (live y) (some (live n)) s
  | whileStmt c b s => whileStmt (live c) (live b) s
  | forStmt x e b s => forStmt x (live e) (live b) s
  | returnStmt none s => returnStmt none s
  | returnStmt (some e) s => returnStmt (some (live e)) s
  | block ss s => block (upToReturn (liveAll ss)) s
  | exprStmt e s => exprStmt (live e) s
  | n => n

/-- Each of the nodes without such statements. -/
def liveAll : List Node → List Node
  | [] => []
  | n :: ns => live n :: liveAll ns

end

/-- A program without the statements that follow a return in their list. -/
def liveProgram (ns : List Node) : List Node := upToReturn (liveAll ns)

theorem liveAll_eq_map (ns : List Node) : liveAll ns = ns.map live := by
  induction ns with
  | nil => rfl
  | cons n ns ih => rw [liveAll, ih, List.map_cons]

/-- Pruning a node does not change whether it is a `return`. -/
theorem isReturn_live (n : Node) : n.live.isReturn = n.isReturn := by
  unfold live
  split <;> rfl

/-- What stands up to the first `return` is cut no further. -/
theorem upToReturn_idem (ns : List Node) : upToReturn (upToReturn ns) = upToReturn ns := by
  induction ns with
  | nil => rfl
  | cons n ns ih =>
      rw [upToReturn, upToReturn]
      cases n.isReturn with
      | true => rfl
      | false => exact congrArg _ ih

/-- Pruning the statements and cutting after the first `return` may be done in either order. -/
theorem upToReturn_liveAll (ns : List Node) :
    upToReturn (liveAll ns) = (upToReturn ns).map live := by
  induction ns with
  | nil => rfl
  | cons n ns ih =>
      rw [liveAll, upToReturn, upToReturn, isReturn_live, List.map_cons, ih]
      cases n.isReturn <;> rfl

theorem mem_of_mem_upToReturn {n : Node} {ns : List Node} (h : n ∈ upToReturn ns) : n ∈ ns := by
  induction ns with
  | nil => exact h
  | cons m ns ih =>
      rw [upToReturn] at h
      cases hm : m.isReturn with
      | true =>
          rw [hm] at h
          exact List.mem_singleton.mp h ▸ List.mem_cons_self
      | false =>
          rw [hm] at h
          rcases List.mem_cons.mp h with rfl | h
          · exact List.mem_cons_self
          · exact List.mem_cons_of_mem _ (ih h)

/-- Nothing is left out where there is no return. -/
theorem upToReturn_eq_self {ns : List Node} (h : ∀ n ∈ ns, n.isReturn = false) :
    upToReturn ns = ns := by
  induction ns with
  | nil => rfl
  | cons n ns ih =>
      obtain ⟨hn, hns⟩ := List.forall_mem_cons.mp h
      rw [upToReturn, hn, ih hns]
      rfl

/-! ### Nodes that differ in what is left out -/

/-- Nodes that differ in statements that follow a return in their list. -/
inductive SameLive : Tree.Role → Node → Node → Prop where
  | congruent {role : Tree.Role} {n n' : Node} (h : Congruent SameLive role n n') :
      SameLive role n n'
  | block {ss ss' : List Node} {s : Option Span}
      (hss : List.Forall₂ (SameLive .statement) (upToReturn ss) (upToReturn ss')) :
      SameLive .block (.block ss s) (.block ss' s)

/-- The same, whichever of the two comes first. -/
def Kindred (role : Tree.Role) (n n' : Node) : Prop := SameLive role n n' ∧ SameLive role n' n

variable {role : Tree.Role} {n n' : Node} {ns : List Node}

/-- Nodes of one form with kindred parts are kindred. -/
theorem kindred_of_congruent (h : Congruent Kindred role n n') : Kindred role n n' :=
  ⟨.congruent (h.mono fun _ _ _ => And.left), .congruent (h.flip fun _ _ _ => And.right)⟩

/-- If each node is kindred to its pruned form, the list of them is, statement by statement. -/
theorem kindred_all (h : ∀ n ∈ ns, Kindred role n n.live) :
    List.Forall₂ (Kindred role) ns (liveAll ns) := by
  rw [liveAll_eq_map, List.forall₂_map_right_iff]
  exact List.forall₂_same.mpr h

/-- Cutting both lists after the first `return` keeps their statements kindred. -/
theorem kindred_upToReturn (h : ∀ n ∈ ns, Kindred .statement n n.live) :
    List.Forall₂ (Kindred .statement) (upToReturn ns) (upToReturn (liveAll ns)) := by
  rw [upToReturn_liveAll, List.forall₂_map_right_iff]
  exact List.forall₂_same.mpr fun n hn => h n (mem_of_mem_upToReturn hn)

/-- A block is kindred to the block of its pruned statements, cut after the first `return`. -/
theorem kindred_block (h : ∀ n ∈ ns, Kindred .statement n n.live) (s : Option Span) :
    Kindred .block (.block ns s) (.block (upToReturn (liveAll ns)) s) := by
  have hall := kindred_upToReturn h
  constructor
  · refine .block ?_
    rw [upToReturn_idem]
    exact hall.imp fun _ _ => And.left
  · refine .block ?_
    rw [upToReturn_idem]
    exact hall.flip.imp fun _ _ => And.right

/-- **What is left of a node** differs from it in statements that follow a return only. -/
theorem kindred_live {role : Role} (h : n.Formed role) : Kindred role.plain n n.live := by
  induction h with
  | literal => exact kindred_of_congruent .literal
  | identifier => exact kindred_of_congruent .identifier
  | array _ ih => exact kindred_of_congruent (.array (kindred_all ih))
  | binary _ _ _ ihl ihr => exact kindred_of_congruent (.binary ihl ihr)
  | logical _ _ _ ihl ihr => exact kindred_of_congruent (.logical ihl ihr)
  | unary _ _ ih => exact kindred_of_congruent (.unary ih)
  | call _ _ ihf ihargs => exact kindred_of_congruent (.call ihf (kindred_all ihargs))
  | index _ _ iht ihi => exact kindred_of_congruent (.index iht ihi)
  | functionExpr _ ih => exact kindred_of_congruent (.functionExpr ih)
  | functionDef _ ih => exact kindred_of_congruent (.functionDef ih)
  | letStmt _ ih => exact kindred_of_congruent (.letStmt ih)
  | assign _ ih => exact kindred_of_congruent (.assign ih)
  | indexAssign _ _ _ iht ihi ihe => exact kindred_of_congruent (.indexAssign iht ihi ihe)
  | ifThen _ _ ihc ihy => exact kindred_of_congruent (.ifThen ihc ihy)
  | ifElse _ _ _ ihc ihy ihn => exact kindred_of_congruent (.ifElse ihc ihy ihn)
  | whileStmt _ _ ihc ihb => exact kindred_of_congruent (.whileStmt ihc ihb)
  | forStmt _ _ ihe ihb => exact kindred_of_congruent (.forStmt ihe ihb)
  | bareReturn => exact kindred_of_congruent .bareReturn
  | valueReturn _ ih => exact kindred_of_congruent (.valueReturn ih)
  | blockStmt _ ih => exact kindred_of_congruent (.blockStmt (kindred_block ih _))
  | exprStmt _ ih => exact kindred_of_congruent (.exprStmt ih)
  | block _ ih => exact kindred_block ih _
  | elseBlock _ ih => exact kindred_of_congruent (.elseBlock (kindred_block ih _))
  | @elseIf _ c y n s _ ih =>
      cases n with
      | none => exact kindred_of_congruent (.elseIf ih)
      | some n => exact kindred_of_congruent (.elseIf ih)

end Ember.Node

import Mathlib.Data.List.Forall2
import Ember.Proofs.Placement

/-!
# Node — statements in blocks of their own

A statement that declares nothing can be put in a block of its own, wherever it stands. Nodes that
differ in such blocks only are alike, whichever of them has more of them.

* `Node.statementAt?`, `Node.wrapAt`: the statement at a position inside a node, and the node with
  this statement in a block of its own.
* `Node.Alike`: nodes that differ only in blocks around single statements.
* `Node.akin_wrapAt`: a node is like the one in which a statement has been put in a block.
-/

namespace Ember

namespace Node

/-! ### Statements inside of nodes -/

/-- Puts the part at a position through a function. -/
def mapPart (f : Node → Node) : Nat → Node → Node
  | i, array es s => array (es.modify i f) s
  | 0, binary op l r s => binary op (f l) r s
  | 1, binary op l r s => binary op l (f r) s
  | 0, logical op l r s => logical op (f l) r s
  | 1, logical op l r s => logical op l (f r) s
  | 0, unary op e s => unary op (f e) s
  | 0, call g args s => call (f g) args s
  | i + 1, call g args s => call g (args.modify i f) s
  | 0, index t i s => index (f t) i s
  | 1, index t i s => index t (f i) s
  | 0, functionExpr n ps b s => functionExpr n ps (f b) s
  | 0, functionDef n ps b s => functionDef n ps (f b) s
  | 0, letStmt n m e s => letStmt n m (f e) s
  | 0, assign n e s => assign n (f e) s
  | 0, indexAssign t i e s => indexAssign (f t) i e s
  | 1, indexAssign t i e s => indexAssign t (f i) e s
  | 2, indexAssign t i e s => indexAssign t i (f e) s
  | 0, ifStmt c y n s => ifStmt (f c) y n s
  | 1, ifStmt c y n s => ifStmt c (f y) n s
  | 2, ifStmt c y n s => ifStmt c y (n.map f) s
  | 0, whileStmt c b s => whileStmt (f c) b s
  | 1, whileStmt c b s => whileStmt c (f b) s
  | 0, forStmt v e b s => forStmt v (f e) b s
  | 1, forStmt v e b s => forStmt v e (f b) s
  | 0, returnStmt e s => returnStmt (e.map f) s
  | i, block ss s => block (ss.modify i f) s
  | 0, exprStmt e s => exprStmt (f e) s
  | _, n => n

/-- The part at the position is put through the function, and nothing else changes. -/
theorem children_mapPart (f : Node → Node) (i : Nat) (n : Node) :
    (n.mapPart f i).children = n.children.modify i f := by
  have hbeyond : n.children.length ≤ i → n.children = n.children.modify i f :=
    fun h => (List.modify_eq_self h).symm
  cases n with
  | ifStmt c y no s =>
      cases no <;> rcases i with _ | _ | _ | i
      all_goals first | rfl | exact hbeyond (by simp [children])
  | returnStmt e s =>
      cases e <;> rcases i with _ | i
      all_goals first | rfl | exact hbeyond (by simp [children])
  | _ =>
      rcases i with _ | _ | _ | i
      all_goals first | rfl | exact hbeyond (by simp [children])

/-- The node is a conditional. -/
def isConditional : Node → Bool
  | ifStmt .. => true
  | _ => false

/-- The part at a position is executed as a statement: it stands in a block, or it is a conditional
after `else`. -/
def standsAlone : Node → Nat → Bool
  | block .., _ => true
  | ifStmt _ _ no _, i => i == 2 && no.any isConditional
  | _, _ => false

/-- The statement that a path of positions leads to, if it leads to one. The first argument says
whether the node itself is executed as a statement. -/
def statementAt? : Bool → List Nat → Node → Option Node
  | true, [], n => some n
  | false, [], _ => none
  | _, i :: path, n => n.children[i]?.bind (statementAt? (n.standsAlone i) path)

/-- Puts what a path of positions leads to in a block of its own. -/
def wrapAt (span : Option Span) : List Nat → Node → Node
  | [], n => block [n] span
  | i :: path, n => n.mapPart (wrapAt span path) i

/-! ### Nodes that are alike -/

/-- The statement declares nothing where it stands, and has a place. -/
structure Wrappable (n : Node) : Prop where
  declared : n.declared? = none
  placed : n.span.isSome

/-- Nodes that differ only in blocks around single statements, by what they stand for. -/
inductive Alike : Tree.Role → Node → Node → Prop where
  | literal {d : Datum} {k : Kind} {s : Option Span} :
      Alike .expression (.literal d k s) (.literal d k s)
  | identifier {n : String} {s : Option Span} :
      Alike .expression (.identifier n s) (.identifier n s)
  | array {es es' : List Node} {s : Option Span} (hes : List.Forall₂ (Alike .expression) es es') :
      Alike .expression (.array es s) (.array es' s)
  | binary {op : String} {l l' r r' : Node} {s : Option Span} (hl : Alike .expression l l')
      (hr : Alike .expression r r') : Alike .expression (.binary op l r s) (.binary op l' r' s)
  | logical {op : String} {l l' r r' : Node} {s : Option Span} (hl : Alike .expression l l')
      (hr : Alike .expression r r') : Alike .expression (.logical op l r s) (.logical op l' r' s)
  | unary {op : String} {e e' : Node} {s : Option Span} (he : Alike .expression e e') :
      Alike .expression (.unary op e s) (.unary op e' s)
  | call {f f' : Node} {args args' : List Node} {s : Option Span} (hf : Alike .expression f f')
      (hargs : List.Forall₂ (Alike .expression) args args') :
      Alike .expression (.call f args s) (.call f' args' s)
  | index {t t' i i' : Node} {s : Option Span} (ht : Alike .expression t t')
      (hi : Alike .expression i i') : Alike .expression (.index t i s) (.index t' i' s)
  | functionExpr {n : Option String} {ps : List String} {b b' : Node} {s : Option Span}
      (hb : Alike .block b b') :
      Alike .expression (.functionExpr n ps b s) (.functionExpr n ps b' s)
  | functionDef {n : String} {ps : List String} {b b' : Node} {s : Option Span}
      (hb : Alike .block b b') : Alike .statement (.functionDef n ps b s) (.functionDef n ps b' s)
  | letStmt {n : String} {m : Bool} {e e' : Node} {s : Option Span} (he : Alike .expression e e') :
      Alike .statement (.letStmt n m e s) (.letStmt n m e' s)
  | assign {n : String} {e e' : Node} {s : Option Span} (he : Alike .expression e e') :
      Alike .statement (.assign n e s) (.assign n e' s)
  | indexAssign {t t' i i' e e' : Node} {s : Option Span} (ht : Alike .expression t t')
      (hi : Alike .expression i i') (he : Alike .expression e e') :
      Alike .statement (.indexAssign t i e s) (.indexAssign t' i' e' s)
  | ifThen {c c' y y' : Node} {s : Option Span} (hc : Alike .expression c c')
      (hy : Alike .block y y') : Alike .statement (.ifStmt c y none s) (.ifStmt c' y' none s)
  | ifElse {c c' y y' n n' : Node} {s : Option Span} (hc : Alike .expression c c')
      (hy : Alike .block y y') (hn : Alike .branch n n') :
      Alike .statement (.ifStmt c y (some n) s) (.ifStmt c' y' (some n') s)
  | whileStmt {c c' b b' : Node} {s : Option Span} (hc : Alike .expression c c')
      (hb : Alike .block b b') : Alike .statement (.whileStmt c b s) (.whileStmt c' b' s)
  | forStmt {v : String} {e e' b b' : Node} {s : Option Span} (he : Alike .expression e e')
      (hb : Alike .block b b') : Alike .statement (.forStmt v e b s) (.forStmt v e' b' s)
  | bareReturn {s : Option Span} : Alike .statement (.returnStmt none s) (.returnStmt none s)
  | valueReturn {e e' : Node} {s : Option Span} (he : Alike .expression e e') :
      Alike .statement (.returnStmt (some e) s) (.returnStmt (some e') s)
  | exprStmt {e e' : Node} {s : Option Span} (he : Alike .expression e e') :
      Alike .statement (.exprStmt e s) (.exprStmt e' s)
  | blockStmt {ss ss' : List Node} {s : Option Span}
      (hss : List.Forall₂ (Alike .statement) ss ss') :
      Alike .statement (.block ss s) (.block ss' s)
  | block {ss ss' : List Node} {s : Option Span} (hss : List.Forall₂ (Alike .statement) ss ss') :
      Alike .block (.block ss s) (.block ss' s)
  | elseBlock {ss ss' : List Node} {s : Option Span}
      (hss : List.Forall₂ (Alike .statement) ss ss') :
      Alike .branch (.block ss s) (.block ss' s)
  | elseIf {c c' y y' : Node} {n n' : Option Node} {s s' : Option Span}
      (h : Alike .statement (.ifStmt c y n s) (.ifStmt c' y' n' s')) :
      Alike .branch (.ifStmt c y n s) (.ifStmt c' y' n' s')
  /-- A block around a statement, on one side. -/
  | wrapLeft {n n' : Node} {s : Option Span} (h : Alike .statement n n') (hn : n.Wrappable) :
      Alike .statement (.block [n] s) n'
  | wrapRight {n n' : Node} {s : Option Span} (h : Alike .statement n n') (hn : n.declared? = none)
      (hn' : n'.Wrappable) : Alike .statement n (.block [n'] s)
  /-- A block around a conditional after `else`, on one side. -/
  | elseLeft {n c y : Node} {o : Option Node} {s s' : Option Span}
      (h : Alike .statement n (.ifStmt c y o s)) (hn : n.Wrappable) :
      Alike .branch (.block [n] s') (.ifStmt c y o s)
  | elseRight {n c y : Node} {o : Option Node} {s s' : Option Span}
      (h : Alike .statement (.ifStmt c y o s) n) (hn : n.Wrappable) :
      Alike .branch (.ifStmt c y o s) (.block [n] s')

/-- What a node stands for, whether it is inside a function or not. -/
def Role.plain : Role → Tree.Role
  | .expression => .expression
  | .statement _ => .statement
  | .block _ => .block
  | .branch _ => .branch

theorem alike_refl {role : Role} {n : Node} (h : n.Formed role) : Alike role.plain n n := by
  induction h with
  | literal => exact .literal
  | identifier => exact .identifier
  | array _ ih => exact .array (List.forall₂_same.mpr ih)
  | binary _ _ _ ihl ihr => exact .binary ihl ihr
  | logical _ _ _ ihl ihr => exact .logical ihl ihr
  | unary _ _ ih => exact .unary ih
  | call _ _ ihf ihargs => exact .call ihf (List.forall₂_same.mpr ihargs)
  | index _ _ iht ihi => exact .index iht ihi
  | functionExpr _ ih => exact .functionExpr ih
  | functionDef _ ih => exact .functionDef ih
  | letStmt _ ih => exact .letStmt ih
  | assign _ ih => exact .assign ih
  | indexAssign _ _ _ iht ihi ihe => exact .indexAssign iht ihi ihe
  | ifThen _ _ ihc ihy => exact .ifThen ihc ihy
  | ifElse _ _ _ ihc ihy ihn => exact .ifElse ihc ihy ihn
  | whileStmt _ _ ihc ihb => exact .whileStmt ihc ihb
  | forStmt _ _ ihe ihb => exact .forStmt ihe ihb
  | bareReturn => exact .bareReturn
  | valueReturn _ ih => exact .valueReturn ih
  | blockStmt _ ih => exact .blockStmt (List.forall₂_same.mpr ih)
  | exprStmt _ ih => exact .exprStmt ih
  | block _ ih => exact .block (List.forall₂_same.mpr ih)
  | elseBlock _ ih => exact .elseBlock (List.forall₂_same.mpr ih)
  | elseIf _ ih => exact .elseIf ih

/-- Alike, whichever of the two comes first. -/
def Akin (role : Tree.Role) (n n' : Node) : Prop := Alike role n n' ∧ Alike role n' n

theorem forall₂_modify {α : Type} {R : α → α → Prop} {xs : List α} {f : α → α} {i : Nat}
    (hrefl : ∀ x ∈ xs, R x x) (hi : ∀ x, xs[i]? = some x → R x (f x)) :
    List.Forall₂ R xs (xs.modify i f) := by
  induction xs generalizing i with
  | nil => cases i <;> exact .nil
  | cons x xs ih =>
      obtain ⟨hx, hxs⟩ := List.forall_mem_cons.mp hrefl
      cases i with
      | zero => exact .cons (hi x rfl) (List.forall₂_same.mpr hxs)
      | succ i => exact .cons hx (ih hxs fun y hy => hi y hy)

/-- A row in which one node has been replaced. -/
theorem alike_modify {role : Tree.Role} {ns : List Node} {f : Node → Node} {i : Nat}
    (hrefl : ∀ n ∈ ns, Alike role n n) (hi : ∀ n, ns[i]? = some n → Akin role n (f n)) :
    List.Forall₂ (Alike role) ns (ns.modify i f) ∧
      List.Forall₂ (Alike role) (ns.modify i f) ns :=
  ⟨forall₂_modify hrefl fun n hn => (hi n hn).1,
    (forall₂_modify (R := flip (Alike role)) hrefl fun n hn => (hi n hn).2).flip⟩

/-- The node can be put in a block of its own where it stands: it is a statement, or a conditional
after `else`. -/
def Stands (role : Role) (n : Node) : Prop :=
  role.plain = .statement ∨ (role.plain = .branch ∧ ∃ c y o s, n = .ifStmt c y o s)

/-- A conditional stays one if a part of it is replaced. -/
theorem mapPart_ifStmt (f : Node → Node) (i : Nat) (c y : Node) (o : Option Node)
    (s : Option Span) : ∃ c' y' o', (ifStmt c y o s).mapPart f i = ifStmt c' y' o' s := by
  rcases i with _ | _ | _ | i <;> exact ⟨_, _, _, rfl⟩

/-- A node is like the one in which a part has been replaced by one that is like it. -/
theorem akin_mapPart {role : Role} {n : Node} {f : Node → Node} {i : Nat} (hn : n.Formed role)
    (hf : ∀ role' c, n.children[i]? = some c → c.Formed role' →
      (n.standsAlone i → Stands role' c) → Akin role'.plain c (f c)) :
    Akin role.plain n (n.mapPart f i) := by
  induction hn with
  | literal => exact ⟨.literal, .literal⟩
  | identifier => exact ⟨.identifier, .identifier⟩
  | array hes =>
      have h := alike_modify (fun e he => alike_refl (hes e he)) fun e he =>
        hf .expression e he (hes e (List.mem_of_getElem? he)) nofun
      simp only [mapPart]
      exact ⟨.array h.1, .array h.2⟩
  | binary hop hl hr =>
      have hl' := alike_refl hl
      have hr' := alike_refl hr
      rcases i with _ | _ | i
      · have h := hf .expression _ rfl hl nofun
        exact ⟨.binary h.1 hr', .binary h.2 hr'⟩
      · have h := hf .expression _ rfl hr nofun
        exact ⟨.binary hl' h.1, .binary hl' h.2⟩
      · exact ⟨.binary hl' hr', .binary hl' hr'⟩
  | logical hop hl hr =>
      have hl' := alike_refl hl
      have hr' := alike_refl hr
      rcases i with _ | _ | i
      · have h := hf .expression _ rfl hl nofun
        exact ⟨.logical h.1 hr', .logical h.2 hr'⟩
      · have h := hf .expression _ rfl hr nofun
        exact ⟨.logical hl' h.1, .logical hl' h.2⟩
      · exact ⟨.logical hl' hr', .logical hl' hr'⟩
  | unary hop he =>
      rcases i with _ | i
      · have h := hf .expression _ rfl he nofun
        exact ⟨.unary h.1, .unary h.2⟩
      · exact ⟨.unary (alike_refl he), .unary (alike_refl he)⟩
  | call hg hargs =>
      have hargs' := fun a ha => alike_refl (hargs a ha)
      rcases i with _ | i
      · have h := hf .expression _ rfl hg nofun
        have hrow := List.forall₂_same.mpr hargs'
        exact ⟨.call h.1 hrow, .call h.2 hrow⟩
      · have h := alike_modify hargs' fun a ha =>
          hf .expression a ha (hargs a (List.mem_of_getElem? ha)) nofun
        exact ⟨.call (alike_refl hg) h.1, .call (alike_refl hg) h.2⟩
  | index ht hi =>
      have ht' := alike_refl ht
      have hi' := alike_refl hi
      rcases i with _ | _ | i
      · have h := hf .expression _ rfl ht nofun
        exact ⟨.index h.1 hi', .index h.2 hi'⟩
      · have h := hf .expression _ rfl hi nofun
        exact ⟨.index ht' h.1, .index ht' h.2⟩
      · exact ⟨.index ht' hi', .index ht' hi'⟩
  | functionExpr hb =>
      rcases i with _ | i
      · have h := hf (.block true) _ rfl hb nofun
        exact ⟨.functionExpr h.1, .functionExpr h.2⟩
      · exact ⟨.functionExpr (alike_refl hb), .functionExpr (alike_refl hb)⟩
  | functionDef hb =>
      rcases i with _ | i
      · have h := hf (.block true) _ rfl hb nofun
        exact ⟨.functionDef h.1, .functionDef h.2⟩
      · exact ⟨.functionDef (alike_refl hb), .functionDef (alike_refl hb)⟩
  | letStmt he =>
      rcases i with _ | i
      · have h := hf .expression _ rfl he nofun
        exact ⟨.letStmt h.1, .letStmt h.2⟩
      · exact ⟨.letStmt (alike_refl he), .letStmt (alike_refl he)⟩
  | assign he =>
      rcases i with _ | i
      · have h := hf .expression _ rfl he nofun
        exact ⟨.assign h.1, .assign h.2⟩
      · exact ⟨.assign (alike_refl he), .assign (alike_refl he)⟩
  | indexAssign ht hi he =>
      have ht' := alike_refl ht
      have hi' := alike_refl hi
      have he' := alike_refl he
      rcases i with _ | _ | _ | i
      · have h := hf .expression _ rfl ht nofun
        exact ⟨.indexAssign h.1 hi' he', .indexAssign h.2 hi' he'⟩
      · have h := hf .expression _ rfl hi nofun
        exact ⟨.indexAssign ht' h.1 he', .indexAssign ht' h.2 he'⟩
      · have h := hf .expression _ rfl he nofun
        exact ⟨.indexAssign ht' hi' h.1, .indexAssign ht' hi' h.2⟩
      · exact ⟨.indexAssign ht' hi' he', .indexAssign ht' hi' he'⟩
  | @ifThen inF c y s hc hy =>
      have hc' := alike_refl hc
      have hy' := alike_refl hy
      rcases i with _ | _ | _ | i
      · have h := hf .expression _ rfl hc nofun
        exact ⟨.ifThen h.1 hy', .ifThen h.2 hy'⟩
      · have h := hf (.block inF) _ rfl hy nofun
        exact ⟨.ifThen hc' h.1, .ifThen hc' h.2⟩
      · exact ⟨.ifThen hc' hy', .ifThen hc' hy'⟩
      · exact ⟨.ifThen hc' hy', .ifThen hc' hy'⟩
  | @ifElse inF c y n s hc hy hn =>
      have hc' := alike_refl hc
      have hy' := alike_refl hy
      have hn' := alike_refl hn
      rcases i with _ | _ | _ | i
      · have h := hf .expression _ rfl hc nofun
        exact ⟨.ifElse h.1 hy' hn', .ifElse h.2 hy' hn'⟩
      · have h := hf (.block inF) _ rfl hy nofun
        exact ⟨.ifElse hc' h.1 hn', .ifElse hc' h.2 hn'⟩
      · have h := hf (.branch inF) _ rfl hn fun hstands => by
          cases n with
          | ifStmt c y o s => exact .inr ⟨rfl, c, y, o, s, rfl⟩
          | _ => cases hstands
        exact ⟨.ifElse hc' hy' h.1, .ifElse hc' hy' h.2⟩
      · exact ⟨.ifElse hc' hy' hn', .ifElse hc' hy' hn'⟩
  | @whileStmt inF c b s hc hb =>
      have hc' := alike_refl hc
      have hb' := alike_refl hb
      rcases i with _ | _ | i
      · have h := hf .expression _ rfl hc nofun
        exact ⟨.whileStmt h.1 hb', .whileStmt h.2 hb'⟩
      · have h := hf (.block inF) _ rfl hb nofun
        exact ⟨.whileStmt hc' h.1, .whileStmt hc' h.2⟩
      · exact ⟨.whileStmt hc' hb', .whileStmt hc' hb'⟩
  | @forStmt inF v e b s he hb =>
      have he' := alike_refl he
      have hb' := alike_refl hb
      rcases i with _ | _ | i
      · have h := hf .expression _ rfl he nofun
        exact ⟨.forStmt h.1 hb', .forStmt h.2 hb'⟩
      · have h := hf (.block inF) _ rfl hb nofun
        exact ⟨.forStmt he' h.1, .forStmt he' h.2⟩
      · exact ⟨.forStmt he' hb', .forStmt he' hb'⟩
  | bareReturn =>
      rcases i with _ | i <;> exact ⟨.bareReturn, .bareReturn⟩
  | valueReturn he =>
      rcases i with _ | i
      · have h := hf .expression _ rfl he nofun
        exact ⟨.valueReturn h.1, .valueReturn h.2⟩
      · exact ⟨.valueReturn (alike_refl he), .valueReturn (alike_refl he)⟩
  | exprStmt he =>
      rcases i with _ | i
      · have h := hf .expression _ rfl he nofun
        exact ⟨.exprStmt h.1, .exprStmt h.2⟩
      · exact ⟨.exprStmt (alike_refl he), .exprStmt (alike_refl he)⟩
  | @blockStmt inF ss s hss =>
      have h := alike_modify (fun n hn => alike_refl (hss n hn)) fun n hn =>
        hf (.statement inF) n hn (hss n (List.mem_of_getElem? hn)) fun _ => .inl rfl
      simp only [mapPart]
      exact ⟨.blockStmt h.1, .blockStmt h.2⟩
  | @block inF ss s hss =>
      have h := alike_modify (fun n hn => alike_refl (hss n hn)) fun n hn =>
        hf (.statement inF) n hn (hss n (List.mem_of_getElem? hn)) fun _ => .inl rfl
      simp only [mapPart]
      exact ⟨.block h.1, .block h.2⟩
  | @elseBlock inF ss s hss =>
      have h := alike_modify (fun n hn => alike_refl (hss n hn)) fun n hn =>
        hf (.statement inF) n hn (hss n (List.mem_of_getElem? hn)) fun _ => .inl rfl
      simp only [mapPart]
      exact ⟨.elseBlock h.1, .elseBlock h.2⟩
  | @elseIf inF c y o s h ih =>
      have hsame := ih hf
      obtain ⟨c', y', o', heq⟩ := mapPart_ifStmt f i c y o s
      rw [heq] at hsame ⊢
      exact ⟨.elseIf hsame.1, .elseIf hsame.2⟩

theorem children_subset_parts (n : Node) : n.children ⊆ n.parts := by
  cases n with
  | partialStmt => exact fun _ hc => absurd hc List.not_mem_nil
  | _ => exact fun _ hc => hc

/-- **A node is like the one in which a statement has been put in a block of its own**, if the
statement declares nothing. -/
theorem akin_wrapAt {role : Role} {n s : Node} {alone : Bool} {path : List Nat}
    (hn : n.Formed role) (hp : n.Placed) (hrole : alone → Stands role n)
    (hs : n.statementAt? alone path = some s) (hd : s.declared? = none) (span : Option Span) :
    Akin role.plain n (n.wrapAt span path) := by
  induction path generalizing role n alone with
  | nil =>
      cases alone with
      | false => cases hs
      | true =>
          obtain rfl : n = s := Option.some.inj hs
          have hrefl := alike_refl hn
          have hwrap : n.Wrappable := ⟨hd, hp.isSome⟩
          rcases hrole rfl with hstmt | ⟨hbranch, c, y, o, s, rfl⟩
          · rw [hstmt] at hrefl ⊢
            exact ⟨.wrapRight hrefl hd hwrap, .wrapLeft hrefl hwrap⟩
          · cases hn with
            | elseIf h => exact ⟨.elseRight (alike_refl h) hwrap, .elseLeft (alike_refl h) hwrap⟩
            | _ => cases hbranch
  | cons i path ih =>
      have hs' : n.children[i]?.bind (statementAt? (n.standsAlone i) path) = some s := by
        cases alone <;> exact hs
      refine akin_mapPart hn fun role' c hc hcformed hstands => ?_
      rw [hc] at hs'
      have hcplaced := hp.part (n.children_subset_parts (List.mem_of_getElem? hc))
      exact ih hcformed hcplaced hstands hs'

end Node

end Ember

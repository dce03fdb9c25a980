import Ember.Proofs.Analysis
import Ember.Proofs.Grammar.Leveled
import Ember.Proofs.Plan.Shape
import Ember.Proofs.Regime.Eval

/-!
# Placement — programs that were read have places throughout

The analysis gives each node the place of its tree, and only blocks have parts behind a brace. So
for the nodes of a program that was read from a text it is as for its trees: each has a place, and
the place tells how many braces are open there. So have the bodies of the functions that the program
makes a place, and hence every node that is ever evaluated or executed.

* `Node.Placed`: a node with a place, and so have its parts.
* `Node.Leveled`: a node of which all parts start where the blocks around them say.
* `analyzeTrees_leveled`, `analyzeTrees_placed`: what the analysis makes of a program that was read.
* `Enters.placed`: the nodes that a run comes to.
-/

namespace Ember

/-- The node has a place, and so have all parts of it that can be run. -/
inductive Node.Placed : Node → Prop where
  | intro {n : Node} (span : n.span.isSome) (parts : ∀ c ∈ n.parts, Placed c) : Placed n

/-- The node starts with `k` braces open, and so do its parts, those of a block behind one more
brace. -/
inductive Node.Leveled (b : Cursor) : Int → Node → Prop where
  | node {k : Int} {n : Node} (hblock : n.isBlock = false) (hs : b.Opens k n.span)
      (h : ∀ c ∈ n.parts, Leveled b k c) : Leveled b k n
  | block {k : Int} {ss : List Node} {s : Option Span} (hs : b.Opens k s)
      (h : ∀ c ∈ ss, Leveled b (k + 1) c) : Leveled b k (.block ss s)

namespace Node

variable {b : Cursor} {k : Int} {n c : Node} {ss : List Node} {s : Option Span}

theorem Placed.isSome (h : n.Placed) : n.span.isSome := by
  cases h with | intro hspan _ => exact hspan

theorem Placed.part (h : n.Placed) (hc : c ∈ n.parts) : c.Placed := by
  cases h with | intro _ hparts => exact hparts c hc

theorem Leveled.opens (h : n.Leveled b k) : b.Opens k n.span := by
  cases h <;> assumption

theorem Leveled.part (h : n.Leveled b k) (hblock : n.isBlock = false) (hc : c ∈ n.parts) :
    c.Leveled b k := by
  cases h with
  | node _ _ hparts => exact hparts c hc
  | block => cases hblock

/-- The statements of a block stand one brace deeper than the block. -/
theorem Leveled.statement (h : (Node.block ss s).Leveled b k) (hc : c ∈ ss) :
    c.Leveled b (k + 1) := by
  cases h with
  | node hblock => cases hblock
  | block _ hss => exact hss c hc

/-- Where a place tells the braces that are open, there is one. -/
theorem Leveled.placed (h : n.Leveled b k) : n.Placed := by
  induction h with
  | node _ hs _ ih => exact .intro hs.isSome ih
  | block hs _ ih => exact .intro hs.isSome ih

end Node

/-! ### The analysis -/

namespace Analysis

variable {b : Cursor} {k : Int} {inF : Bool} {t : Tree} {n c d : Node} {cs : List Node}

/-- What the analysis makes of a tree that takes a role starts where `k` braces are open. -/
def Leveling (b : Cursor) (k : Int) (inF : Bool) (t : Tree) : Tree.Role → Prop
  | .expression | .statement => Admits (analyze inF t) (Node.Leveled b k)
  | .block => Admits (analyzeBlock inF t) (Node.Leveled b k)
  | .branch => Admits (analyzeBranch inF t) (Node.Leveled b k)

/-- A node without parts. -/
theorem leveled_single (hs : b.Opens k n.span) (hblock : n.isBlock = false)
    (hparts : n.parts = []) : n.Leveled b k :=
  .node hblock hs (by rw [hparts]; exact fun _ hc => absurd hc List.not_mem_nil)

/-- A node with one part. -/
theorem leveled_around (hc : c.Leveled b k) (hs : b.Opens k n.span) (hblock : n.isBlock = false)
    (hparts : n.parts = [c]) : n.Leveled b k :=
  .node hblock hs (by rw [hparts]; exact List.forall_mem_singleton.mpr hc)

/-- A node with a first part and others. -/
theorem leveled_beside (hc : c.Leveled b k) (hcs : ∀ c ∈ cs, c.Leveled b k)
    (hs : b.Opens k n.span) (hblock : n.isBlock = false) (hparts : n.parts = c :: cs) :
    n.Leveled b k :=
  .node hblock hs (by rw [hparts]; exact List.forall_mem_cons.mpr ⟨hc, hcs⟩)

/-- A node with two parts. -/
theorem leveled_pair (hc : c.Leveled b k) (hd : d.Leveled b k) (hs : b.Opens k n.span)
    (hblock : n.isBlock = false) (hparts : n.parts = [c, d]) : n.Leveled b k :=
  leveled_beside hc (List.forall_mem_singleton.mpr hd) hs hblock hparts

/-- The analysis takes places over, and what is behind a brace stays there. -/
theorem analyze_leveled {role : Tree.Role} (h : Tree.Shaped Grammar.IsNumber role t)
    (hp : t.Leveled b k) (inF : Bool) : Leveling b k inF t role := by
  induction h generalizing k inF with
  | number | string | bool | nil | identifier =>
      simp only [Leveling, analyze]
      exact leveled_single hp.opens rfl rfl
  | array hes ih =>
      simp only [Leveling, analyze]
      refine (analyzeAll_admits fun t ht =>
        ih t ht (hp.part (by decide) ht) inF).bind fun ns hns => ?_
      exact .node rfl hp.opens hns
  | binary hop hl hr ihl ihr =>
      simp only [Leveling, analyze]
      refine Admits.bind (ihl (hp.part (by decide) (by simp)) inF) fun l hl => ?_
      exact Admits.bind (ihr (hp.part (by decide) (by simp)) inF) fun r hr =>
        leveled_pair hl hr hp.opens rfl rfl
  | logical hop hl hr ihl ihr =>
      simp only [Leveling, analyze]
      refine Admits.bind (ihl (hp.part (by decide) (by simp)) inF) fun l hl => ?_
      exact Admits.bind (ihr (hp.part (by decide) (by simp)) inF) fun r hr =>
        leveled_pair hl hr hp.opens rfl rfl
  | unary hop he ih =>
      simp only [Leveling, analyze]
      split
      · exact leveled_single hp.opens rfl rfl
      · rename_i hnone
        exact absurd hnone (foldedNegation?_ne he)
      · exact Admits.bind (ih (hp.part (by decide) (by simp)) inF) fun e he =>
        leveled_around he hp.opens rfl rfl
  | call hf hargs ihf ihargs =>
      simp only [Leveling, analyze]
      refine Admits.bind (ihf (hp.part (by decide) (by simp)) inF) fun f hf => ?_
      refine Admits.bind (analyzeAll_admits fun t ht =>
        ihargs t ht (hp.part (by decide) (List.mem_cons_of_mem _ ht)) inF) fun ns hns => ?_
      exact leveled_beside hf hns hp.opens rfl rfl
  | index ht hi iht ihi =>
      simp only [Leveling, analyze]
      refine Admits.bind (iht (hp.part (by decide) (by simp)) inF) fun t ht => ?_
      exact Admits.bind (ihi (hp.part (by decide) (by simp)) inF) fun i hi =>
        leveled_pair ht hi hp.opens rfl rfl
  | functionExpr hps hb ih | functionDef hn hps hb ih =>
      simp only [Leveling, analyze, functionHead?_functionHead]
      refine admits_function (ih (hp.part (by decide) (by simp)) true) fun n hn => ?_
      exact leveled_around hn hp.opens rfl rfl
  | letStmt hn he ih =>
      simp only [Leveling, analyze, letHead?_letHead]
      exact Admits.bind (ih (hp.part (by decide) (by simp)) inF) fun e he =>
        leveled_around he hp.opens rfl rfl
  | assign hn he ih =>
      simp only [Leveling, analyze]
      exact Admits.bind (ih (hp.part (by decide) (by simp)) inF) fun e he =>
        leveled_around he hp.opens rfl rfl
  | indexAssign ht hi he iht ihi ihe =>
      simp only [Leveling, analyze]
      refine Admits.bind (iht (hp.part (by decide) (by simp)) inF) fun t ht => ?_
      refine Admits.bind (ihi (hp.part (by decide) (by simp)) inF) fun i hi => ?_
      refine Admits.bind (ihe (hp.part (by decide) (by simp)) inF) fun e he => ?_
      exact leveled_beside ht (by simpa using ⟨hi, he⟩) hp.opens rfl rfl
  | ifThen hc hy ihc ihy =>
      simp only [Leveling, analyze]
      refine Admits.bind (ihc (hp.part (by decide) (by simp)) inF) fun c hc => ?_
      exact Admits.bind (ihy (hp.part (by decide) (by simp)) inF) fun y hy =>
        leveled_pair hc hy hp.opens rfl rfl
  | ifElse hc hy hn ihc ihy ihn =>
      simp only [Leveling, analyze_ifElse]
      refine Admits.bind (ihc (hp.part (by decide) (by simp)) inF) fun c hc => ?_
      refine Admits.bind (ihy (hp.part (by decide) (by simp)) inF) fun y hy => ?_
      refine Admits.bind (ihn (hp.part (by decide) (by simp)) inF) fun n hn => ?_
      exact leveled_beside hc (by simpa using ⟨hy, hn⟩) hp.opens rfl rfl
  | whileStmt hc hb ihc ihb =>
      simp only [Leveling, analyze]
      refine Admits.bind (ihc (hp.part (by decide) (by simp)) inF) fun c hc => ?_
      exact Admits.bind (ihb (hp.part (by decide) (by simp)) inF) fun b hb =>
        leveled_pair hc hb hp.opens rfl rfl
  | forStmt hn he hb ihe ihb =>
      simp only [Leveling, analyze]
      refine Admits.bind (ihe (hp.part (by decide) (by simp)) inF) fun e he => ?_
      exact Admits.bind (ihb (hp.part (by decide) (by simp)) inF) fun b hb =>
        leveled_pair he hb hp.opens rfl rfl
  | bareReturn =>
      simp only [Leveling, analyze]
      cases inF with
      | true => exact leveled_single hp.opens rfl rfl
      | false => exact trivial
  | valueReturn he ih =>
      simp only [Leveling, analyze]
      cases inF with
      | true =>
          exact Admits.bind (ih (hp.part (by decide) (by simp)) true) fun e he =>
            leveled_around he hp.opens rfl rfl
      | false => exact trivial
  | blockStmt hb ih =>
      simp only [Leveling, analyze]
      exact ih (hp.part (by decide) (by simp)) inF
  | exprStmt he ih =>
      simp only [Leveling, analyze]
      exact Admits.bind (ih (hp.part (by decide) (by simp)) inF) fun e he =>
        leveled_around he hp.opens rfl rfl
  | block hss ih =>
      simp only [Leveling, analyzeBlock]
      refine (analyzeAll_admits fun t ht => ih t ht (hp.statement ht) inF).bind fun ns hns => ?_
      exact .block hp.opens hns
  | elseBlock hb ih =>
      have hplacing := ih hp inF
      cases hb with
      | block hss =>
          simp only [Leveling, analyzeBranch] at hplacing ⊢
          rwa [if_neg (by simp [Tree.kind?])]
  | elseIf h ih =>
      simp only [Leveling, analyzeBranch, Tree.kind?, if_true]
      exact ih hp inF

end Analysis

/-- **The place of a node tells how many blocks are around it**, if the program was read from a
text. -/
theorem analyzeTrees_leveled {filename source : String} {ts : List Tree} {ns : List Node}
    (hts : parseProgram filename source = .ok ts) (hns : analyzeTrees ts = .ok ns) :
    ∀ n ∈ ns, n.Leveled (.start filename (scanned source)) 0 := by
  have hshaped := parseProgram_shaped hts
  have hleveled := parseProgram_leveled hts
  have hall : Analysis.Admits (Analysis.analyzeAll false ts) fun ns =>
      ∀ n ∈ ns, n.Leveled (.start filename (scanned source)) 0 :=
    Analysis.analyzeAll_admits fun t ht =>
      Analysis.analyze_leveled (hshaped t ht) (hleveled t ht) false
  exact hall.of_ok (analyzeTrees_eq_ok.mp hns)

/-- **The analysis gives every node a place** if the program was read from a text. -/
theorem analyzeTrees_placed {filename source : String} {ts : List Tree} {ns : List Node}
    (hts : parseProgram filename source = .ok ts) (hns : analyzeTrees ts = .ok ns) :
    ∀ n ∈ ns, n.Placed := fun n hn => (analyzeTrees_leveled hts hns n hn).placed

/-! ### Along a run -/

/-- The bodies of all functions have places, and so has the code that runs. -/
def Regime.placement : Regime where
  Inv s := ∀ f c, s.closure? f = some c → c.body.Placed
  Good _ _ := True
  Scope _ _ := True
  Fits _ _ n := n.Placed
  Inner _ _ n := n.Placed
  Measurable _ _ := True
  good_mono := fun _ h => h
  fits_mono := fun _ _ h => h
  inner_mono := fun _ _ h => h
  fits_scope := fun _ => trivial
  inner_scope := fun _ => trivial
  fits_part := fun h _ hc => h.part hc
  fits_statement := fun h hn => h.part hn
  good_plain := fun _ => trivial
  good_between := fun _ _ _ _ => trivial
  good_length := fun _ _ _ _ => trivial
  good_lookup := fun _ _ _ => trivial
  good_element := fun _ _ _ => trivial
  addFrame := fun hs hb => ⟨hs, hb⟩
  addCall := fun hs _ hc => ⟨hs, hs _ _ hc⟩
  addArray := fun hs _ => ⟨hs, trivial⟩
  addClosure := by
    intro s c hs hc
    refine ⟨fun f d hd => ?_, trivial⟩
    rw [Store.closure?_addClosure] at hd
    split at hd
    · cases hd
      exact hc
    · exact hs f d hd
  declare := fun hs _ _ => hs
  update := fun hs _ _ _ => hs
  push := fun hs _ _ => hs
  pop := fun hs _ => hs
  setElement := fun hs _ _ => hs

/-- **Every node that is evaluated or executed has a place**, if the nodes of the program have. -/
theorem Enters.placed {cfg : Settings} {fuel : Nat} {ns : List Node} {x : Moment} {n : Node}
    (hns : ∀ n ∈ ns, n.Placed) (hx : Enters cfg fuel ns .fresh x)
    (hn : x.activity.node? = some n) : n.Placed := by
  have hfresh : Regime.placement.Inv Machine.fresh.store := by
    intro f c hc
    simp [Machine.fresh, Store.fresh, Store.closure?] at hc
  have hkept := (Regime.enters (R := Regime.placement) (v := .unit) hfresh hns trivial
    fun _ _ _ _ _ => trivial).1 x hx
  obtain ⟨fuel', a, m⟩ := x
  cases a with
  | eval _ _ | exec _ _ =>
      cases hn
      exact hkept.1.2
  | _ => cases hn

end Ember

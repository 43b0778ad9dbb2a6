/-
The nodes of a syntax tree and the parts of the text they were read from.

* `Node` — statements, expressions, blocks and parameters as nodes of one tree, with their children
  in the order of the text;
* `Node.IsNested` — the span of a node is a part of the text and contains those of its children, of
  which one begins after the other ends;
* `Node.Nests` — this holds of the node and of everything below it;
* `Row` — nodes that stand one after another between two offsets.

Design notes: a reader of tokens moves forward only, so the nodes it reads form a row between the
place where it starts and the place where it stops. The children of a node are such a row too, and a
node whose span reaches around the row of its children nests if they do (`Row.enclose`). So nothing
about pairs of spans has to be said while a tree is built.
-/
import Bytescript.Ast.Basic
import Bytescript.Proofs.Tiling

namespace Bytescript

/-! ### Parts of a text -/

/-- The place lies in the text, and it is the right one for the characters before it. -/
structure Position.IsIn (source : List Char) (p : Position) : Prop where
  le : p.offset ≤ source.length
  eq : p = .ofText (source.take p.offset)

/-- The span is a part of the text, with at least one character. -/
structure Span.IsPart (source : List Char) (s : Span) : Prop where
  start : s.start.IsIn source
  stop : s.stop.IsIn source
  lt : s.start.offset < s.stop.offset

/-- The other span lies within this one. -/
def Span.Contains (s t : Span) : Prop :=
  s.start.offset ≤ t.start.offset ∧ t.stop.offset ≤ s.stop.offset

/-- The span ends before the other one begins. -/
def Span.Before (s t : Span) : Prop :=
  s.stop.offset ≤ t.start.offset

theorem Position.isIn_of_eq {source : List Char} {p : Position}
    (h : p = .ofText (source.take p.offset)) : p.IsIn source := by
  refine ⟨?_, h⟩
  have hoffset : p.offset = (source.take p.offset).length := congrArg Position.offset h
  rw [List.length_take] at hoffset
  omega

/-! ### Nodes -/

/-- A part of a syntax tree that has a place in the text. -/
inductive Node where
  | expr (e : Expr)
  | stmt (s : Stmt)
  | block (b : Block)
  | param (p : Param)

/-- The nodes right below an expression. -/
def Expr.children : Expr → List Node
  | .identifier .. | .integer .. | .float .. | .string .. | .boolean .. | .null _ => []
  | .unary _ operand _ => [.expr operand]
  | .binary _ left right _ => [.expr left, .expr right]
  | .conditional condition thenBranch elseBranch _ =>
    .expr condition :: .block thenBranch :: elseBranch.toList.map .block
  | .function _ params body _ => params.map .param ++ [.block body]
  | .call callee args _ => .expr callee :: args.map .expr
  | .array elements _ => elements.map .expr
  | .hash entries _ => entries.flatMap fun entry => [.expr entry.1, .expr entry.2]
  | .index object key _ => [.expr object, .expr key]

/-- The nodes right below a statement. -/
def Stmt.children : Stmt → List Node
  | .declare _ _ value _ | .assign _ value _ | .expression value _ => [.expr value]
  | .ret value _ => value.toList.map .expr

namespace Node

/-- The part of the text a node was read from. -/
def span : Node → Span
  | expr e => e.span
  | stmt s => s.span
  | block b => b.span
  | param p => p.span

/-- The nodes right below a node, in the order of the text. -/
def children : Node → List Node
  | expr e => e.children
  | stmt s => s.children
  | block b => b.statements.map .stmt
  | param _ => []

/-- The node has a part of the text that contains the parts of its children, and these follow one
another. -/
structure IsNested (source : List Char) (n : Node) : Prop where
  isPart : n.span.IsPart source
  contains : ∀ child ∈ n.children, n.span.Contains child.span
  ordered : n.children.Pairwise fun a b => a.span.Before b.span

/-- The node and everything below it are nested. -/
inductive Nests (source : List Char) : Node → Prop where
  | mk {n : Node} : n.IsNested source → (∀ child ∈ n.children, child.Nests source) →
      n.Nests source

theorem Nests.isNested {source : List Char} {n : Node} (h : n.Nests source) :
    n.IsNested source := by
  cases h with
  | mk hnested _ => exact hnested

theorem Nests.child {source : List Char} {n child : Node} (h : n.Nests source)
    (hchild : child ∈ n.children) : child.Nests source := by
  cases h with
  | mk _ hchildren => exact hchildren child hchild

theorem Nests.lt {source : List Char} {n : Node} (h : n.Nests source) :
    n.span.start.offset < n.span.stop.offset :=
  h.isNested.isPart.lt

end Node

/-- The node belongs to the tree of a program. -/
inductive Ast.HasNode (ast : Ast) : Node → Prop where
  | statement {s : Stmt} : s ∈ ast.statements → ast.HasNode (.stmt s)
  | child {n child : Node} : ast.HasNode n → child ∈ n.children → ast.HasNode child

theorem Ast.HasNode.nests {source : List Char} {ast : Ast} {n : Node} (h : ast.HasNode n)
    (hstatements : ∀ s ∈ ast.statements, (Node.stmt s).Nests source) : n.Nests source := by
  induction h with
  | statement hs => exact hstatements _ hs
  | child _ hchild ih => exact ih.child hchild

/-! ### Rows -/

/-- Nodes that nest and stand one after another between two offsets. -/
inductive Row (source : List Char) : (lo : Nat) → List Node → (hi : Nat) → Prop where
  | nil {lo hi : Nat} : lo ≤ hi → Row source lo [] hi
  | cons {lo hi : Nat} {n : Node} {rest : List Node} : n.Nests source →
      lo ≤ n.span.start.offset → Row source n.span.stop.offset rest hi →
      Row source lo (n :: rest) hi

namespace Row

variable {source : List Char} {lo lo' mid hi hi' a b : Nat} {n m : Node} {ns ms : List Node}

theorem le (h : Row source lo ns hi) : lo ≤ hi := by
  induction h with
  | nil hle => exact hle
  | cons hn hlo _ ih =>
    have hlt := hn.lt
    omega

/-- A row within wider bounds. -/
theorem mono (h : Row source lo ns hi) (hlo : lo' ≤ lo) (hhi : hi ≤ hi') :
    Row source lo' ns hi' := by
  induction h generalizing lo' with
  | nil hle => exact .nil (by omega)
  | cons hn hstart _ ih => exact .cons hn (by omega) (ih (Nat.le_refl _) hhi)

/-- One row after another. -/
theorem append (h : Row source lo ns mid) (h' : Row source mid ms hi) :
    Row source lo (ns ++ ms) hi := by
  induction h with
  | nil hle => exact h'.mono hle (Nat.le_refl _)
  | cons hn hstart _ ih => exact .cons hn hstart (ih h')

theorem singleton_iff : Row source lo [n] hi ↔
    n.Nests source ∧ lo ≤ n.span.start.offset ∧ n.span.stop.offset ≤ hi := by
  constructor
  · intro h
    cases h with
    | cons hn hlo hrest => exact ⟨hn, hlo, hrest.le⟩
  · rintro ⟨hn, hlo, hhi⟩
    exact .cons hn hlo (.nil hhi)

theorem forall_mem (h : Row source lo ns hi) : ∀ n ∈ ns,
    n.Nests source ∧ lo ≤ n.span.start.offset ∧ n.span.stop.offset ≤ hi := by
  induction h with
  | nil => simp
  | @cons lo hi n rest hn hlo hrest ih =>
    refine List.forall_mem_cons.mpr ⟨⟨hn, hlo, hrest.le⟩, ?_⟩
    intro m hm
    obtain ⟨hnests, hstart, hstop⟩ := ih m hm
    have hlt := hn.lt
    exact ⟨hnests, by omega, hstop⟩

theorem pairwise (h : Row source lo ns hi) : ns.Pairwise fun a b => a.span.Before b.span := by
  induction h with
  | nil => exact .nil
  | cons _ _ hrest ih =>
    refine .cons ?_ ih
    intro m hm
    exact (hrest.forall_mem m hm).2.1

/-- A node whose span reaches around the row of its children. -/
theorem nests (h : Row source a n.children b) (hpart : n.span.IsPart source)
    (ha : n.span.start.offset ≤ a) (hb : b ≤ n.span.stop.offset) : n.Nests source := by
  have hmem := h.forall_mem
  refine .mk ⟨hpart, ?_, h.pairwise⟩ fun child hchild => (hmem child hchild).1
  intro child hchild
  obtain ⟨-, hstart, hstop⟩ := hmem child hchild
  exact ⟨by omega, by omega⟩

/-- Such a node is a row of its own. -/
theorem enclose (h : Row source a n.children b) (hpart : n.span.IsPart source)
    (ha : n.span.start.offset ≤ a) (hb : b ≤ n.span.stop.offset) (hlo : lo ≤ n.span.start.offset)
    (hhi : n.span.stop.offset ≤ hi) : Row source lo [n] hi :=
  singleton_iff.mpr ⟨h.nests hpart ha hb, hlo, hhi⟩

/-- A node without children. -/
theorem leaf (hn : n.children = []) (hpart : n.span.IsPart source) (hlo : lo ≤ n.span.start.offset)
    (hhi : n.span.stop.offset ≤ hi) : Row source lo [n] hi := by
  refine enclose (a := n.span.start.offset) ?_ hpart (Nat.le_refl _) (Nat.le_refl _) hlo hhi
  rw [hn]
  exact .nil (Nat.le_of_lt hpart.lt)

/-- A node with the same span as its only child. -/
theorem wrap (h : Row source lo [m] hi) (hspan : n.span = m.span) (hn : n.children = [m]) :
    Row source lo [n] hi := by
  obtain ⟨hm, hlo, hhi⟩ := singleton_iff.mp h
  refine enclose (a := m.span.start.offset) (b := m.span.stop.offset) ?_ ?_ ?_ ?_ ?_ ?_
  · rw [hn]
    exact singleton_iff.mpr ⟨hm, Nat.le_refl _, Nat.le_refl _⟩
  · rw [hspan]
    exact hm.isNested.isPart
  all_goals rw [hspan]
  all_goals omega

/-- The row ends where its last node ends. -/
theorem shrink (h : Row source lo [n] hi) : Row source lo [n] n.span.stop.offset := by
  obtain ⟨hn, hlo, -⟩ := singleton_iff.mp h
  exact singleton_iff.mpr ⟨hn, hlo, Nat.le_refl _⟩

/-- A node that begins with a token, and has its children behind it. -/
theorem opened {start stop : Span} (hstart : start.IsPart source) (hmid : start.stop.offset ≤ mid)
    (h : Row source mid n.children stop.stop.offset) (hstop : stop.stop.IsIn source)
    (hspan : n.span = start.join stop) :
    Row source start.start.offset [n] stop.stop.offset := by
  have hlt := hstart.lt
  have hle := h.le
  have hpart : n.span.IsPart source := by
    rw [hspan]
    exact ⟨hstart.start, hstop, show start.start.offset < stop.stop.offset by omega⟩
  refine h.enclose hpart ?_ ?_ ?_ ?_
  all_goals rw [hspan]
  · show start.start.offset ≤ mid
    omega
  · exact Nat.le_refl _
  · exact Nat.le_refl _
  · exact Nat.le_refl _

/-- A node that begins with its first child. -/
theorem extended {stop : Span} (hfirst : Row source lo [m] mid)
    (h : Row source mid ns stop.stop.offset) (hstop : stop.stop.IsIn source)
    (hspan : n.span = m.span.join stop) (hchildren : n.children = m :: ns) :
    Row source lo [n] stop.stop.offset := by
  obtain ⟨hm, hlo, hmid⟩ := singleton_iff.mp hfirst
  have hlt := hm.lt
  have hle := h.le
  have hpart : n.span.IsPart source := by
    rw [hspan]
    exact ⟨hm.isNested.isPart.start, hstop,
      show m.span.start.offset < stop.stop.offset by omega⟩
  have hrow : Row source m.span.start.offset n.children stop.stop.offset := by
    rw [hchildren]
    exact .cons hm (Nat.le_refl _) (h.mono hmid (Nat.le_refl _))
  refine hrow.enclose hpart ?_ ?_ ?_ ?_
  all_goals rw [hspan]
  · exact Nat.le_refl _
  · exact Nat.le_refl _
  · exact hlo
  · exact Nat.le_refl _

/-- A function that takes a name stays where it is. -/
theorem named {e : Expr} (h : Row source lo [.expr e] hi) (name : String) :
    Row source lo [.expr (e.named name)] hi := by
  obtain ⟨hnests, hlo, hhi⟩ := singleton_iff.mp h
  cases e with
  | function old params body span =>
    obtain ⟨hnested, hchildren⟩ := hnests
    exact singleton_iff.mpr ⟨.mk ⟨hnested.1, hnested.2, hnested.3⟩ hchildren, hlo, hhi⟩
  | _ => exact h

end Row

end Bytescript

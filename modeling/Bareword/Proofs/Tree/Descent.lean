import Bareword.Tree.Basic

/-! # Nodes within a tree

* `Node.Within`: a node lies below another one.
* `Node.height_lt`: a child has fewer levels than its parent.
-/

namespace Bareword.Tree.Node
set_option autoImplicit false

theorem preorder_eq (n : Node) : n.preorder = n :: preorder.preorderAll n.children := by
  obtain ⟨kind, span, text, code, message, children⟩ := n
  rw [preorder]

theorem height_eq (n : Node) : n.height = height.heightAll n.children + 1 := by
  obtain ⟨kind, span, text, code, message, children⟩ := n
  rw [height]

theorem mem_preorder_self (n : Node) : n ∈ n.preorder := by
  rw [preorder_eq]
  exact List.mem_cons_self ..

theorem mem_preorderAll {m : Node} {cs : List Node} :
    m ∈ preorder.preorderAll cs ↔ ∃ c ∈ cs, m ∈ c.preorder := by
  induction cs with
  | nil => simp [preorder.preorderAll]
  | cons c cs ih =>
    rw [preorder.preorderAll, List.mem_append, ih]
    simp

theorem mem_preorder {m n : Node} : m ∈ n.preorder ↔ m = n ∨ ∃ c ∈ n.children, m ∈ c.preorder := by
  rw [preorder_eq, List.mem_cons, mem_preorderAll]

theorem height_le_heightAll {c : Node} {cs : List Node} (h : c ∈ cs) :
    c.height ≤ height.heightAll cs := by
  induction cs with
  | nil => cases h
  | cons d cs ih =>
    rw [height.heightAll]
    rcases List.mem_cons.mp h with rfl | h
    · exact Nat.le_max_left ..
    · exact Nat.le_trans (ih h) (Nat.le_max_right ..)

theorem height_lt {c n : Node} (h : c ∈ n.children) : c.height < n.height := by
  rw [height_eq n]
  exact Nat.lt_succ_of_le (height_le_heightAll h)

/-- What goes from a node to its children holds of all nodes below it. -/
theorem preorder_induction {P : Node → Prop} {n : Node} (hn : P n) (hparts : ∀ m, P m → ∀ c ∈ m.children, P c) :
    ∀ m ∈ n.preorder, P m := by
  intro m hm
  induction hheight : n.height using Nat.strongRecOn generalizing n with
  | ind k ih =>
    subst hheight
    rcases mem_preorder.mp hm with rfl | ⟨c, hc, hm⟩
    · exact hn
    · exact ih c.height (height_lt hc) (hparts n hn c hc) hm rfl

/-- What lies below a node lies below every node above it. -/
theorem preorder_subset {m n : Node} (h : m ∈ n.preorder) : ∀ x ∈ m.preorder, x ∈ n.preorder := by
  refine preorder_induction (P := fun m => ∀ x ∈ m.preorder, x ∈ n.preorder) (fun _ hx => hx) ?_ m h
  exact fun m hm c hc x hx => hm x (mem_preorder.mpr (.inr ⟨c, hc, hx⟩))

/-- The node lies below another one. -/
structure Within (m n : Node) : Prop where
  nodes : ∀ x ∈ m.preorder, x ∈ n.preorder
  lower : m.height < n.height

theorem within_child {c n : Node} (h : c ∈ n.children) : c.Within n :=
  ⟨fun _ hx => mem_preorder.mpr (.inr ⟨c, h, hx⟩), height_lt h⟩

theorem Within.trans {l m n : Node} (h₁ : l.Within m) (h₂ : m.Within n) : l.Within n :=
  ⟨fun x hx => h₂.nodes x (h₁.nodes x hx), Nat.lt_trans h₁.lower h₂.lower⟩

theorem Within.mem {m n : Node} (h : m.Within n) : m ∈ n.preorder := h.nodes m m.mem_preorder_self

theorem mem_of_child? {n c : Node} {i : Int} (h : n.child? i = some c) : c ∈ n.children := by
  rw [child?] at h
  split at h
  · cases h
  · exact List.mem_of_getElem? h

theorem mem_of_first? {n c : Node} {kind : Kind} (h : n.first? kind = some c) :
    c ∈ n.children ∧ c.kind = kind := by
  refine ⟨List.mem_of_find?_eq_some h, ?_⟩
  have hk := List.find?_some h
  exact eq_of_beq hk

theorem mem_of_significant {n c : Node} (h : c ∈ n.significant) : c ∈ n.children :=
  (List.mem_filter.mp h).1

end Bareword.Tree.Node

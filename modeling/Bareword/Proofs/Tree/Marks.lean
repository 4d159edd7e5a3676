import Bareword.Proofs.Scope.Sorted
import Bareword.Proofs.Token.Dots
import Bareword.Proofs.Tree.Events

/-! # Where names are used and bound

A walk over a tree meets the places where it matters which names are bound, and those that change it. The
parse binds names in the same order, and the offsets of these places are in that order too.

* `Node.marks`: the places that a walk meets.
* `Mark.applyAll`: the names that are bound after some places.
* `Settled`: property accesses and words are as the names that are bound want them.
* `Lies`, `Sits`: where in the source some places stand, and where a node ends.
* `Marked`: the places between two snapshots, with what they do to the names.
* `Reads.marked`: what every production reads and answers.
-/

namespace Bareword.Tree
set_option autoImplicit false
open Scope.Arena (bindTop dropTop)

/-- A place in a tree that uses names or changes which are bound. -/
inductive Mark where
  | use (n : Node)
  | enter (f : Node)
  | leave
  | bind (a : Node)

/-! ## Walks -/

/-- Nodes of other kinds neither use names nor change which are bound. -/
def Kind.isPlain : Kind → Bool
  | .dotGet | .word | .functionDef | .assign => false
  | _ => true

namespace Node

def parameters (n : Node) : List Text :=
  (n.first? .params).toList.flatMap fun list => (list.ofKind .identifier).map (·.text)

/-- The names that an assignment binds. -/
def targets (n : Node) : List Text := (n.first? .assignable).toList.map (·.text)

/-- What a walk meets before the children of a node. -/
def opening (n : Node) : List Mark :=
  match n.kind with
  | .dotGet | .word => [.use n]
  | .functionDef => [.enter n]
  | _ => []

/-- What a walk meets after the children of a node. -/
def closing (n : Node) : List Mark :=
  match n.kind with
  | .assign => [.bind n]
  | .functionDef => [.leave]
  | _ => []

/-- What a walk over a tree meets. -/
def marks (n : Node) : List Mark :=
  match n with
  | ⟨_, _, _, _, _, children⟩ => n.opening ++ (marksAll children ++ n.closing)
where
  /-- What walks over several trees meet. -/
  marksAll : List Node → List Mark
    | [] => []
    | c :: cs => c.marks ++ marksAll cs

/-- What a walk meets below a node. -/
def inner (n : Node) : List Mark := n.children.flatMap marks

theorem marksAll_eq (cs : List Node) : marks.marksAll cs = cs.flatMap marks := by
  induction cs with
  | nil => rfl
  | cons c cs ih => rw [marks.marksAll, ih, List.flatMap_cons]

theorem marks_eq (n : Node) : n.marks = n.opening ++ (n.inner ++ n.closing) := by
  cases n
  rw [marks, marksAll_eq]
  rfl

theorem marks_of_isPlain {n : Node} (h : n.kind.isPlain = true) : n.marks = n.inner := by
  have hopening : n.opening = [] := by
    rw [opening]
    cases hk : n.kind <;> first | rfl | (rw [hk] at h; cases h)
  have hclosing : n.closing = [] := by
    rw [closing]
    cases hk : n.kind <;> first | rfl | (rw [hk] at h; cases h)
  rw [marks_eq, hopening, hclosing, List.nil_append, List.append_nil]

@[simp] theorem inner_push (n c : Node) : (n.push c).inner = n.inner ++ c.marks := by
  rw [inner, push, List.flatMap_append, List.flatMap_singleton]
  rfl

@[simp] theorem inner_branch (kind : Kind) (cs : List Node) : (branch kind cs).inner = cs.flatMap marks := rfl

theorem marks_leaf {kind : Kind} (h : kind.isPlain = true) (tok : Token) : (leaf kind tok).marks = [] :=
  marks_of_isPlain h

end Node

/-! ## Names -/

/-- Whether some lists of names show a name. -/
def shows (bs : List (List Text)) (name : Text) : Bool := bs.any (Scope.holds · name)

/-- What a place does to the names that are bound. -/
def Mark.apply (bs : List (List Text)) : Mark → List (List Text)
  | .use _ => bs
  | .enter f => f.parameters.foldl Scope.bind [] :: bs
  | .leave => dropTop bs
  | .bind a => bindTop a.targets bs

/-- The names that are bound after some places. -/
def Mark.applyAll (bs : List (List Text)) (ms : List Mark) : List (List Text) := ms.foldl Mark.apply bs

@[simp] theorem Mark.applyAll_nil (bs : List (List Text)) : applyAll bs [] = bs := rfl

theorem Mark.applyAll_append (bs : List (List Text)) (ms ms' : List Mark) :
    applyAll bs (ms ++ ms') = applyAll (applyAll bs ms) ms' :=
  List.foldl_append

/-- The base of a property access is bound, and a word does not start with a bound name and a dot. -/
structure Node.Resolved (src : Text) (bs : List (List Text)) (n : Node) : Prop where
  dotGet : n.kind = .dotGet →
    ∃ base, n.children.head? = some base ∧ base.kind = .identifier ∧ shows bs base.text = true
  word : n.kind = .word → ∀ b rest, Token.isName b = true →
    src.drop n.span.start.toNat = b ++ Text.byte '.' :: rest → shows bs b = false

/-- A place is as the names that are bound there want it. Names are used and bound in the body of a function
only, not in its head. -/
def Mark.Fits (src : Text) (bs : List (List Text)) : Mark → Prop
  | .use n => n.Resolved src bs
  | .enter f => (f.children.take 3).flatMap Node.marks = []
  | _ => True

/-- All places are as the names that are bound there want them. -/
def Settled (src : Text) : List (List Text) → List Mark → Prop
  | _, [] => True
  | bs, m :: ms => m.Fits src bs ∧ Settled src (m.apply bs) ms

theorem settled_append {src : Text} {bs : List (List Text)} {ms ms' : List Mark} :
    Settled src bs (ms ++ ms') ↔ Settled src bs ms ∧ Settled src (Mark.applyAll bs ms) ms' := by
  induction ms generalizing bs with
  | nil => exact (true_and _).symm.to_iff
  | cons m ms ih => exact (and_congr_right fun _ => ih).trans and_assoc.symm

theorem Settled.fits {src : Text} {bs : List (List Text)} {ms : List Mark} (h : Settled src bs ms) {m : Mark}
    (hm : m ∈ ms) : ∃ bs', m.Fits src bs' := by
  induction ms generalizing bs with
  | nil => cases hm
  | cons m' ms ih =>
    rcases List.mem_cons.mp hm with rfl | hm
    · exact ⟨bs, h.1⟩
    · exact ih h.2 hm

/-! ## Offsets -/

/-- Where the next token starts at the latest. -/
def reach (src : Text) (pos : Nat) : Nat := Token.skipBlank src pos false

section
variable {src : Text} {p p' q q' r : Nat}

theorem le_reach (src : Text) (p : Nat) : p ≤ reach src p := Token.le_skipBlank src p false

theorem reach_mono (src : Text) (h : p ≤ q) : reach src p ≤ reach src q := by
  by_contra hlt
  have hlow := Nat.le_trans h (le_reach src q)
  have hlen : reach src q < src.length := by
    have hle := Token.blankLength_le false (src.drop p)
    rw [List.length_drop] at hle
    have hreach : reach src p = p + Token.blankLength false (src.drop p) := rfl
    omega
  -- Where the blanks after the second offset end, there is no blank.
  have hat : (src.drop q)[Token.blankLength false (src.drop q)]? = some src[reach src q] := by
    rw [List.getElem?_drop]
    exact List.getElem?_eq_getElem hlen
  have hblank := Token.isBlank_of_skipped hlow (Nat.lt_of_not_le hlt) (List.getElem?_eq_getElem hlen)
  have hnot := Token.not_blank_at_blankLength hat
  rcases hblank with h | h | h | h
  · exact hnot (.inl h)
  · exact hnot (.inr (.inl h))
  · exact hnot (.inr (.inr (.inl h)))
  · exact hnot (.inr (.inr (.inr ⟨h, rfl⟩)))

/-- Places stand in the source as they do in the tree: what is bound when a name is used was assigned before. -/
def Mark.InOrder : Mark → Mark → Prop
  | .bind a, .use n => a.span.stop ≤ n.span.start
  | .use n, .bind a => n.span.start < a.span.stop
  | _, _ => True

/-- Some places stand between two offsets, in order. -/
structure Lies (src : Text) (p : Nat) (ms : List Mark) (q : Nat) : Prop where
  le : p ≤ q
  use : ∀ n : Node, .use n ∈ ms → (reach src p : Int) ≤ n.span.start ∧ n.span.start < q
  bind : ∀ a : Node, .bind a ∈ ms → (p : Int) < a.span.stop ∧ a.span.stop ≤ reach src q
  ordered : ms.Pairwise Mark.InOrder

namespace Lies
variable {ms ms' : List Mark}

theorem nil (h : p ≤ q) : Lies src p [] q := ⟨h, nofun, nofun, .nil⟩

theorem weaken (h : Lies src p ms q) (hp : p' ≤ p) (hq : q ≤ q') : Lies src p' ms q' := by
  refine ⟨by have := h.le; omega, fun n hn => ?_, fun a ha => ?_, h.ordered⟩
  · have huse := h.use n hn
    have hreach := reach_mono src hp
    omega
  · have hbind := h.bind a ha
    have hreach := reach_mono src hq
    omega

theorem append (h : Lies src p ms q) (h' : Lies src q ms' r) : Lies src p (ms ++ ms') r := by
  have hfirst := h.weaken (Nat.le_refl p) h'.le
  have hsecond := h'.weaken h.le (Nat.le_refl r)
  refine ⟨hfirst.le, fun n hn => ?_, fun a ha => ?_, List.pairwise_append.mpr ⟨h.ordered, h'.ordered, ?_⟩⟩
  · exact (List.mem_append.mp hn).elim (hfirst.use n) (hsecond.use n)
  · exact (List.mem_append.mp ha).elim (hfirst.bind a) (hsecond.bind a)
  · intro m hm m' hm'
    match m, m' with
    | .use n, .bind a => exact Int.lt_trans (h.use n hm).2 (h'.bind a hm').1
    | .bind a, .use n => exact Int.le_trans (h.bind a hm).2 (h'.use n hm').1
    | .use _, .use _ | .use _, .enter _ | .use _, .leave | .enter _, _ | .leave, _ | .bind _, .bind _
    | .bind _, .enter _ | .bind _, .leave => trivial

/-- A node that uses names stands before what is bound in it. -/
theorem cons_use (h : Lies src p ms q) {n : Node} (hp : p' ≤ p) (hlow : (reach src p' : Int) ≤ n.span.start)
    (hstart : n.span.start ≤ p) (hstop : n.span.start < q) : Lies src p' (.use n :: ms) q := by
  have hrest := h.weaken hp (Nat.le_refl q)
  refine ⟨hrest.le, ?_, ?_, List.pairwise_cons.mpr ⟨?_, h.ordered⟩⟩
  · intro m hm
    rcases List.mem_cons.mp hm with heq | hm
    · cases heq
      exact ⟨hlow, hstop⟩
    · exact hrest.use m hm
  · intro a ha
    exact hrest.bind a ((List.mem_cons.mp ha).resolve_left Mark.noConfusion)
  · intro m hm
    cases m with
    | bind a => exact Int.lt_of_le_of_lt hstart (h.bind a hm).1
    | use _ | enter _ | leave => trivial

/-- An assignment ends behind the names that are used in it. -/
theorem concat_bind (h : Lies src p ms q) {a : Node} (hp : p' ≤ p) (hlow : (p' : Int) < a.span.stop)
    (hhigh : a.span.stop ≤ reach src q) (huse : ∀ n : Node, .use n ∈ ms → n.span.start < a.span.stop) :
    Lies src p' (ms ++ [.bind a]) q := by
  have hrest := h.weaken hp (Nat.le_refl q)
  refine ⟨hrest.le, ?_, ?_, List.pairwise_append.mpr ⟨h.ordered, List.pairwise_singleton _ _, ?_⟩⟩
  · intro n hn
    exact hrest.use n ((List.mem_append.mp hn).resolve_right fun hlast => nomatch List.mem_singleton.mp hlast)
  · intro b hb
    rcases List.mem_append.mp hb with hb | hlast
    · exact hrest.bind b hb
    · cases List.mem_singleton.mp hlast
      exact ⟨hlow, hhigh⟩
  · intro m hm m' hm'
    cases List.mem_singleton.mp hm'
    cases m with
    | use n => exact huse n hm
    | bind _ | enter _ | leave => trivial

theorem within (h : Lies src p ms q) {f : Node} (hp : p' ≤ p) : Lies src p' (.enter f :: (ms ++ [.leave])) q := by
  have hrest := h.weaken hp (Nat.le_refl q)
  have hmem {m : Mark} (hm : m ∈ Mark.enter f :: (ms ++ [.leave])) (henter : m ≠ .enter f) (hleave : m ≠ .leave) :
      m ∈ ms := by
    simpa [henter, hleave] using hm
  refine ⟨hrest.le, fun n hn => ?_, fun a ha => ?_, ?_⟩
  · exact hrest.use n (hmem hn Mark.noConfusion Mark.noConfusion)
  · exact hrest.bind a (hmem ha Mark.noConfusion Mark.noConfusion)
  · refine List.pairwise_cons.mpr ⟨fun _ _ => trivial, List.pairwise_append.mpr ⟨h.ordered, List.pairwise_singleton _ _, ?_⟩⟩
    intro m _ m' hm'
    cases List.mem_singleton.mp hm'
    cases m <;> trivial

end Lies

/-- Read between two offsets, a node ends there, behind the names that are used in it. -/
structure Sits (src : Text) (p : Nat) (n : Node) (ms : List Mark) (q : Nat) : Prop where
  le : p ≤ q
  low : (p : Int) ≤ n.span.stop
  high : n.span.stop ≤ reach src q
  inside : ∀ m : Node, .use m ∈ ms → m.span.start < n.span.stop ∧ m.span.start < q

namespace Sits
variable {n c : Node} {ms ms' : List Mark}

theorem weaken (h : Sits src p n ms q) (hp : p' ≤ p) (hq : q ≤ q') : Sits src p' n ms q' := by
  refine ⟨by have := h.le; omega, by have := h.low; omega, ?_, fun m hm => ?_⟩
  · have hhigh := h.high
    have hreach := reach_mono src hq
    omega
  · have hinside := h.inside m hm
    omega

theorem raise (h : Sits src p n ms q) (hq : p' ≤ q) (hstop : (p' : Int) ≤ n.span.stop) : Sits src p' n ms q :=
  ⟨hq, hstop, h.high, h.inside⟩

/-- A node ends behind its children. -/
theorem push (h : Sits src p n n.inner q) (hc : Sits src q c c.marks r) : Sits src p (n.push c) (n.push c).inner r := by
  have hle := h.le
  have hlow := hc.low
  have hhigh := hc.high
  have hstop : (n.push c).span.stop = c.span.stop ∧ n.inner = [] ∨
      (n.push c).span.stop = max n.span.stop c.span.stop := by
    rw [Node.push]
    dsimp only
    split
    · rename_i hempty
      have hchildren := List.isEmpty_iff.mp (Bool.and_eq_true_iff.mp hempty).1
      exact .inl ⟨rfl, by rw [Node.inner, hchildren, List.flatMap_nil]⟩
    · exact .inr rfl
  rw [Node.inner_push]
  rcases hstop with ⟨hstop, hinner⟩ | hstop
  · refine ⟨Nat.le_trans hle hc.le, by omega, by omega, fun m hm => ?_⟩
    rw [hinner, List.nil_append] at hm
    rw [hstop]
    exact hc.inside m hm
  · have hnode := h.weaken (Nat.le_refl p) hc.le
    have hend := hnode.high
    refine ⟨hnode.le, by omega, by omega, fun m hm => ?_⟩
    rcases List.mem_append.mp hm with hm | hm
    · have hinside := hnode.inside m hm
      omega
    · have hinside := hc.inside m hm
      omega

end Sits

/-- Read between two offsets, some nodes stand one behind the other. -/
inductive SitAll (src : Text) : Nat → List Node → Nat → Prop where
  | nil {p q : Nat} (hle : p ≤ q) : SitAll src p [] q
  | cons {p q r : Nat} {c : Node} {cs : List Node} (hc : Sits src p c c.marks q) (hcs : SitAll src q cs r) :
      SitAll src p (c :: cs) r

namespace SitAll
variable {n c : Node} {cs cs' : List Node}

theorem le (h : SitAll src p cs q) : p ≤ q := by
  induction h with
  | nil hle => exact hle
  | cons hc _ ih => exact Nat.le_trans hc.le ih

theorem before (hp : p' ≤ p) (h : SitAll src p cs q) : SitAll src p' cs q := by
  cases h with
  | nil hle => exact .nil (Nat.le_trans hp hle)
  | cons hc hcs => exact .cons (hc.weaken hp (Nat.le_refl _)) hcs

theorem append (h : SitAll src p cs q) (h' : SitAll src q cs' r) : SitAll src p (cs ++ cs') r := by
  induction h with
  | nil hle => exact h'.before hle
  | cons hc _ ih => exact .cons hc (ih h')

/-- The last of several nodes ends behind all names that are used in them. -/
theorem extent (h : SitAll src p (c :: cs) q) (kind : Kind) :
    Sits src p (.branch kind (c :: cs)) ((c :: cs).flatMap Node.marks) q := by
  induction cs generalizing p c with
  | nil =>
    cases h with
    | cons hc hcs =>
      have hlast := hc.weaken (Nat.le_refl p) hcs.le
      rw [List.flatMap_singleton]
      exact ⟨hlast.le, hlast.low, hlast.high, hlast.inside⟩
  | cons d ds ih =>
    cases h with
    | cons hc hcs =>
      have hrest := ih hcs
      have hlow := hrest.low
      have hstop : (Node.branch kind (c :: d :: ds)).span.stop = (Node.branch kind (d :: ds)).span.stop := by
        simp [Node.branch, Node.extent, List.getLast?_cons]
      refine ⟨Nat.le_trans hc.le hrest.le, ?_, ?_, fun m hm => ?_⟩
      · rw [hstop]
        have hle := hc.le
        omega
      · rw [hstop]
        exact hrest.high
      · rw [hstop]
        rw [List.flatMap_cons] at hm
        rcases List.mem_append.mp hm with hm | hm
        · have hinside := hc.inside m hm
          have hle := hrest.le
          omega
        · exact hrest.inside m hm

theorem push (hn : Sits src p n n.inner q) (h : SitAll src q cs r) :
    Sits src p (n.append cs) (n.append cs).inner r := by
  induction cs generalizing n q with
  | nil =>
    cases h with
    | nil hle => exact hn.weaken (Nat.le_refl p) hle
  | cons c cs ih =>
    cases h with
    | cons hc hcs => exact ih (hn.push hc) hcs

end SitAll

end

end Bareword.Tree

import Bareword.Proofs.Tree.Resolution
import Bareword.Proofs.Tree.Adequacy
import Mathlib.Data.List.Chain

/-! # Spans

Spans of a tree lie in the source, around those of their children, and text is that of its span. Without
faults, siblings stand one behind the other. Error nodes may stand ahead of what is read next, behind blanks
that are not skipped yet, so what is known of a node that is read is that it ends where the next token starts
at the latest.

* `Node.Placed`, `Node.Apart`: what holds of the span of a node, and of its children among each other.
* `Laid`, `Open`: a node that is read, and one that may get more children.
* `Spanned`, `SpannedAll`, `Enlarges`: what is read between two snapshots.
* `Reads.spanned`: what every production reads.
* `parse_spans`: the spans of a parse.
-/

namespace Bareword

theorem Span.text_of_le {src : Text} {start stop : Nat} (hle : start ≤ stop) (hstop : stop ≤ src.length) :
    (⟨start, stop⟩ : Span).text src = src.extract start stop := by
  have hrange : ¬ ((start : Int) < 0 ∨ (stop : Int) > src.length ∨ (start : Int) > stop) := by omega
  rw [text, Text.slice, if_neg hrange]
  rfl

end Bareword

namespace Bareword.Tree
set_option autoImplicit false
open Token (KindSet)

namespace Node

/-- A span in the source, around those of the children. Text is that of the span. -/
structure Placed (src : Text) (n : Node) : Prop where
  start_nonneg : 0 ≤ n.span.start
  start_le : n.span.start ≤ n.span.stop
  stop_le : n.span.stop ≤ src.length
  around : ∀ c ∈ n.children, n.span.start ≤ c.span.start ∧ c.span.stop ≤ n.span.stop
  text_eq : n.text ≠ [] → n.text = n.span.text src

/-- Each child starts where the one before ends, or behind. -/
def Apart (n : Node) : Prop := n.children.IsChain fun c d => c.span.stop ≤ d.span.start

theorem forall_preorder {n : Node} {P : Node → Prop} :
    (∀ m ∈ n.preorder, P m) ↔ P n ∧ ∀ c ∈ n.children, ∀ m ∈ c.preorder, P m := by
  rw [preorder_eq, List.forall_mem_cons]
  refine and_congr_right fun _ => ⟨fun h c hc m hm => h m (mem_preorderAll.mpr ⟨c, hc, hm⟩), fun h m hm => ?_⟩
  obtain ⟨c, hc, hm⟩ := mem_preorderAll.mp hm
  exact h c hc m hm

section
variable {src : Text} {n c : Node} {cs : List Node} {lo hi : Int}

theorem push_span (n c : Node) :
    n.children = [] ∧ (n.push c).span = c.span ∨ (n.push c).span = n.span.cover c.span := by
  rw [push]
  dsimp only
  split
  · rename_i hempty
    exact .inl ⟨List.isEmpty_iff.mp (Bool.and_eq_true_iff.mp hempty).1, rfl⟩
  · exact .inr rfl

theorem push_bounds (hn : lo ≤ n.span.start ∧ n.span.stop ≤ hi) (hc : lo ≤ c.span.start ∧ c.span.stop ≤ hi) :
    lo ≤ (n.push c).span.start ∧ (n.push c).span.stop ≤ hi := by
  rcases push_span n c with ⟨-, hspan⟩ | hspan
  · rwa [hspan]
  · rw [hspan]
    exact ⟨Int.le_min.mpr ⟨hn.1, hc.1⟩, Int.max_le.mpr ⟨hn.2, hc.2⟩⟩

theorem append_bounds (hn : lo ≤ n.span.start ∧ n.span.stop ≤ hi)
    (hcs : ∀ c ∈ cs, lo ≤ c.span.start ∧ c.span.stop ≤ hi) :
    lo ≤ (n.append cs).span.start ∧ (n.append cs).span.stop ≤ hi := by
  induction cs generalizing n with
  | nil => exact hn
  | cons c cs ih =>
    rw [List.forall_mem_cons] at hcs
    exact ih (push_bounds hn hcs.1) hcs.2

theorem append_text (n : Node) (cs : List Node) : (n.append cs).text = n.text := by
  induction cs generalizing n with
  | nil => rfl
  | cons c cs ih => exact ih (n.push c)

theorem Placed.push (hn : n.Placed src) (htext : n.text = []) (hc : c.Placed src) : (n.push c).Placed src := by
  obtain ⟨hnonneg, hstop⟩ : 0 ≤ (n.push c).span.start ∧ (n.push c).span.stop ≤ src.length :=
    push_bounds ⟨hn.start_nonneg, hn.stop_le⟩ ⟨hc.start_nonneg, hc.stop_le⟩
  have hchildren : (n.push c).children = n.children ++ [c] := rfl
  rcases push_span n c with ⟨hempty, hspan⟩ | hspan
  · refine ⟨hnonneg, hspan ▸ hc.start_le, hstop, fun d hd => ?_, fun h => absurd htext h⟩
    rw [hchildren, hempty, List.nil_append, List.mem_singleton] at hd
    rw [hspan, hd]
    exact ⟨Int.le_refl _, Int.le_refl _⟩
  · have hle := hn.start_le
    have hstart : (n.push c).span.start = min n.span.start c.span.start := congrArg Span.start hspan
    have hend : (n.push c).span.stop = max n.span.stop c.span.stop := congrArg Span.stop hspan
    refine ⟨hnonneg, by omega, hstop, fun d hd => ?_, fun h => absurd htext h⟩
    rw [hchildren, List.mem_append, List.mem_singleton] at hd
    rcases hd with hd | rfl
    · have haround := hn.around d hd
      omega
    · omega

theorem Placed.append (hn : n.Placed src) (htext : n.text = []) (hcs : ∀ c ∈ cs, c.Placed src) :
    (n.append cs).Placed src := by
  induction cs generalizing n with
  | nil => exact hn
  | cons c cs ih =>
    rw [List.forall_mem_cons] at hcs
    exact ih (hn.push htext hcs.1) htext hcs.2

/-- Nodes that stand one behind the other lie between the first start and the last end. -/
theorem extent_around (hchain : (c :: cs).IsChain fun c d => c.span.stop ≤ d.span.start)
    (hle : ∀ d ∈ c :: cs, d.span.start ≤ d.span.stop) :
    ∀ d ∈ c :: cs, (extent (c :: cs)).start ≤ d.span.start ∧ d.span.stop ≤ (extent (c :: cs)).stop := by
  induction cs generalizing c with
  | nil =>
    intro d hd
    rw [List.mem_singleton] at hd
    rw [hd]
    exact ⟨Int.le_refl _, Int.le_refl _⟩
  | cons e cs ih =>
    rw [List.isChain_cons_cons] at hchain
    have hrest := ih hchain.2 fun d hd => hle d (List.mem_cons_of_mem c hd)
    have hfirst := hle c List.mem_cons_self
    have hsecond := hle e (List.mem_cons_of_mem c List.mem_cons_self)
    have hstart : (extent (e :: cs)).start = e.span.start := by simp [extent, List.getLast?_cons]
    have hwhole : (extent (c :: e :: cs)).start = c.span.start ∧
        (extent (c :: e :: cs)).stop = (extent (e :: cs)).stop := by
      simp [extent, List.getLast?_cons]
    have hnext := hrest e List.mem_cons_self
    rw [hwhole.1, hwhole.2]
    intro d hd
    rcases List.mem_cons.mp hd with rfl | hd
    · omega
    · have haround := hrest d hd
      omega

theorem Placed.branch {kind : Kind} (hchain : (c :: cs).IsChain fun c d => c.span.stop ≤ d.span.start)
    (hcs : ∀ d ∈ c :: cs, d.Placed src) : (Node.branch kind (c :: cs)).Placed src := by
  have haround := extent_around hchain fun d hd => (hcs d hd).start_le
  have hc := hcs c List.mem_cons_self
  obtain ⟨e, he⟩ : ∃ e, (c :: cs).getLast? = some e := ⟨_, List.getLast?_cons⟩
  have hlast := hcs e (List.mem_of_getLast? he)
  have hspan : (Node.branch kind (c :: cs)).span = ⟨c.span.start, e.span.stop⟩ := by
    rw [Node.branch, extent, he]
    rfl
  have hfirst := haround c List.mem_cons_self
  refine ⟨?_, ?_, ?_, haround, fun h => absurd rfl h⟩
  · rw [hspan]
    exact hc.start_nonneg
  · exact Int.le_trans hfirst.1 (Int.le_trans hc.start_le hfirst.2)
  · rw [hspan]
    exact hlast.stop_le

end
end Node

namespace Grammar
open Report (SyntaxFault)
open Parsing
open Node

/-! ## Nodes that are read -/

section
variable {setup : Setup} {exact : Prop} {s t u : Snapshot} {n c : Node} {cs cs' : List Node} {tok : Token}
  {accept : KindSet} {p p' q : Nat}

/-- A node that is read up to a snapshot. It starts at `p` or behind, and ends at the latest where the next token
starts; without faults, it ends where the snapshot is. -/
structure Laid (setup : Setup) (p : Nat) (n : Node) (t : Snapshot) : Prop where
  placed : ∀ m ∈ n.preorder, m.Placed setup.src
  low : (p : Int) ≤ n.span.start
  high : n.span.stop ≤ reach setup.src t.pos
  clean : t.faults = [] → n.span.stop ≤ t.pos ∧ ∀ m ∈ n.preorder, m.Apart

/-- A node that may get more children. -/
structure Open (setup : Setup) (p : Nat) (n : Node) (t : Snapshot) : Prop extends Laid setup p n t where
  bare : n.text = []

/-- From one snapshot to another the source is read. -/
structure Onward (setup : Setup) (s t : Snapshot) : Prop where
  le : s.pos ≤ t.pos
  bound : t.pos ≤ setup.src.length
  quiet : t.faults = [] → s.faults = []

/-- From one snapshot to another a node is read that starts at `p` or behind. -/
structure Spanned (setup : Setup) (p : Nat) (s : Snapshot) (n : Node) (t : Snapshot) : Prop
    extends Onward setup s t where
  ahead : s.pos ≤ p
  laid : Laid setup p n t

/-- From one snapshot to another nodes are read that stand one behind the other, at `p` or behind. -/
structure SpannedAll (setup : Setup) (p : Nat) (s : Snapshot) (cs : List Node) (t : Snapshot) : Prop
    extends Onward setup s t where
  ahead : s.pos ≤ p
  laid : ∀ c ∈ cs, Laid setup p c t
  chain : cs.IsChain fun c d => c.span.stop ≤ d.span.start

/-- From one snapshot to another the start of a node is read, from `p` on. -/
structure Begun (setup : Setup) (p : Nat) (s : Snapshot) (n : Node) (t : Snapshot) : Prop
    extends Onward setup s t where
  ahead : s.pos ≤ p
  behind : p ≤ t.pos
  opened : Open setup p n t

/-- From one snapshot to another more is read below a node that starts at `q` at the latest. -/
structure Enlarges (setup : Setup) (q : Nat) (s : Snapshot) (n whole : Node) (t : Snapshot) : Prop
    extends Onward setup s t where
  opened : ∀ p ≤ q, Open setup p n s → Open setup p whole t

namespace Onward

theorem refl (hs : s.pos ≤ setup.src.length) : Onward setup s s := ⟨Nat.le_refl _, hs, id⟩

theorem trans (h : Onward setup s u) (h' : Onward setup u t) : Onward setup s t :=
  ⟨Nat.le_trans h.le h'.le, h'.bound, fun ht => h.quiet (h'.quiet ht)⟩

/-- Names, counters and looks do not count. -/
theorem same (hs : s.pos ≤ setup.src.length) (hpos : t.pos = s.pos) (hfaults : t.faults = s.faults) :
    Onward setup s t :=
  ⟨Nat.le_of_eq hpos.symm, hpos ▸ hs, fun h => hfaults ▸ h⟩

theorem faulty (hle : s.pos ≤ t.pos) (hbound : t.pos ≤ setup.src.length) (h : t.faults ≠ []) : Onward setup s t :=
  ⟨hle, hbound, fun ht => absurd ht h⟩

end Onward

namespace Laid

theorem low_le (h : Laid setup p n t) : p ≤ reach setup.src t.pos := by
  have hlow := h.low
  have hhigh := h.high
  have hle := (h.placed n n.mem_preorder_self).start_le
  omega

theorem mono (h : Laid setup p n u) (hu : Onward setup u t) (hp : p' ≤ p) : Laid setup p' n t := by
  have hlow := h.low
  have hhigh := h.high
  have hle := hu.le
  have hreach := reach_mono setup.src hu.le
  refine ⟨h.placed, by omega, by omega, fun ht => ?_⟩
  obtain ⟨hstop, hapart⟩ := h.clean (hu.quiet ht)
  exact ⟨by omega, hapart⟩

theorem leaf (hchildren : n.children = []) (hn : n.Placed setup.src) (hlow : (p : Int) ≤ n.span.start)
    (hhigh : n.span.stop ≤ reach setup.src t.pos) (hclean : t.faults = [] → n.span.stop ≤ t.pos) :
    Laid setup p n t := by
  have hapart : n.Apart := by
    rw [Apart, hchildren]
    exact .nil
  refine ⟨forall_preorder.mpr ⟨hn, ?_⟩, hlow, hhigh, fun ht => ⟨hclean ht, forall_preorder.mpr ⟨hapart, ?_⟩⟩⟩ <;>
  · rw [hchildren]
    exact nofun

end Laid

namespace Spanned

theorem mono (h : Spanned setup p s n u) (hu : Onward setup u t) (hs : s.pos ≤ p') (hp : p' ≤ p) :
    Spanned setup p' s n t :=
  ⟨h.toOnward.trans hu, hs, h.laid.mono hu hp⟩

theorem weaken (h : Spanned setup p s n t) (hs : s.pos ≤ p') (hp : p' ≤ p) : Spanned setup p' s n t :=
  ⟨h.toOnward, hs, h.laid.mono (.refl h.bound) hp⟩

theorem after (hu : Onward setup s u) (h : Spanned setup p u n t) : Spanned setup p s n t :=
  ⟨hu.trans h.toOnward, Nat.le_trans hu.le h.ahead, h.laid⟩

theorem before (h : Spanned setup p s n u) (hu : Onward setup u t) : Spanned setup p s n t :=
  h.mono hu h.ahead (Nat.le_refl _)

theorem single (h : Spanned setup p s n t) : SpannedAll setup p s [n] t :=
  ⟨h.toOnward, h.ahead, fun _ hc => List.mem_singleton.mp hc ▸ h.laid, .singleton _⟩

end Spanned

namespace SpannedAll

theorem nil (h : Onward setup s t) (hp : s.pos ≤ p) : SpannedAll setup p s [] t := ⟨h, hp, nofun, .nil⟩

theorem after (hu : Onward setup s u) (h : SpannedAll setup p u cs t) : SpannedAll setup p s cs t :=
  ⟨hu.trans h.toOnward, Nat.le_trans hu.le h.ahead, h.laid, h.chain⟩

theorem before (h : SpannedAll setup p s cs u) (hu : Onward setup u t) : SpannedAll setup p s cs t :=
  ⟨h.toOnward.trans hu, h.ahead, fun c hc => (h.laid c hc).mono hu (Nat.le_refl _), h.chain⟩

theorem weaken (h : SpannedAll setup p s cs t) (hs : s.pos ≤ p') (hp : p' ≤ p) : SpannedAll setup p' s cs t :=
  ⟨h.toOnward, hs, fun c hc => (h.laid c hc).mono (.refl h.bound) hp, h.chain⟩

theorem cons (hc : Spanned setup p s c u) (hcs : SpannedAll setup q u cs t) (hq : c.span.stop ≤ q) :
    SpannedAll setup p s (c :: cs) t := by
  have hlow := hc.laid.low
  have hle := (hc.laid.placed c c.mem_preorder_self).start_le
  refine ⟨hc.toOnward.trans hcs.toOnward, hc.ahead, List.forall_mem_cons.mpr ⟨?_, fun d hd => ?_⟩, ?_⟩
  · exact hc.laid.mono hcs.toOnward (Nat.le_refl _)
  · exact (hcs.laid d hd).mono (.refl hcs.bound) (by omega)
  · exact hcs.chain.cons fun d hd => Int.le_trans hq (hcs.laid d (List.mem_of_head? hd)).low

theorem append (h : SpannedAll setup p s cs u) (h' : SpannedAll setup q u cs' t) (hp : p ≤ q)
    (hq : reach setup.src u.pos ≤ q) : SpannedAll setup p s (cs ++ cs') t := by
  refine ⟨h.toOnward.trans h'.toOnward, h.ahead, fun c hc => ?_, h.chain.append h'.chain fun c hc d hd => ?_⟩
  · rcases List.mem_append.mp hc with hc | hc
    · exact (h.laid c hc).mono h'.toOnward (Nat.le_refl _)
    · exact (h'.laid c hc).mono (.refl h'.bound) hp
  · have hhigh := (h.laid c (List.mem_of_getLast? hc)).high
    have hlow := (h'.laid d (List.mem_of_head? hd)).low
    omega

/-- Several nodes are the children of a node that starts with the first and ends with the last. -/
theorem branch (h : SpannedAll setup p s (c :: cs) t) (kind : Kind) : Open setup p (.branch kind (c :: cs)) t := by
  have hself (d : Node) (hd : d ∈ c :: cs) := (h.laid d hd).placed d d.mem_preorder_self
  obtain ⟨e, he⟩ : ∃ e, (c :: cs).getLast? = some e := ⟨_, List.getLast?_cons⟩
  have hlast := h.laid e (List.mem_of_getLast? he)
  have hspan : (Node.branch kind (c :: cs)).span = ⟨c.span.start, e.span.stop⟩ := by
    rw [Node.branch, extent, he]
    rfl
  refine ⟨⟨forall_preorder.mpr ⟨.branch h.chain hself, fun d hd => (h.laid d hd).placed⟩, ?_, ?_, fun ht => ?_⟩, rfl⟩
  · rw [hspan]
    exact (h.laid c List.mem_cons_self).low
  · rw [hspan]
    exact hlast.high
  · rw [hspan]
    exact ⟨(hlast.clean ht).1, forall_preorder.mpr ⟨h.chain, fun d hd => ((h.laid d hd).clean ht).2⟩⟩

end SpannedAll

namespace Open

/-- A node without text and children ends where the snapshot is. -/
theorem empty {kind : Kind} (hp : p ≤ t.pos) (ht : t.pos ≤ setup.src.length) :
    Open setup p { kind, span := ⟨p, t.pos⟩ } t := by
  have hreach := le_reach setup.src t.pos
  exact ⟨.leaf rfl ⟨Int.natCast_nonneg _, Int.ofNat_le.mpr hp, Int.ofNat_le.mpr ht, nofun, fun h => absurd rfl h⟩
    (Int.le_refl _) (Int.ofNat_le.mpr hreach) fun _ => Int.le_refl _, rfl⟩

theorem append (hn : Open setup p n s) (hcs : SpannedAll setup q s cs t) (hp : p ≤ q) :
    Open setup p (n.append cs) t := by
  have hself := hn.placed n n.mem_preorder_self
  have hplaced (c : Node) (hc : c ∈ cs) := (hcs.laid c hc).placed c c.mem_preorder_self
  have hreach := reach_mono setup.src hcs.le
  have hhigh := hn.high
  obtain ⟨hlow, hstop⟩ : (p : Int) ≤ (n.append cs).span.start ∧ (n.append cs).span.stop ≤ reach setup.src t.pos := by
    refine append_bounds ⟨hn.low, by omega⟩ fun c hc => ?_
    have hlow := (hcs.laid c hc).low
    exact ⟨by omega, (hcs.laid c hc).high⟩
  refine ⟨⟨forall_preorder.mpr ⟨hself.append hn.bare hplaced, fun d hd => ?_⟩, hlow, hstop, fun ht => ?_⟩, ?_⟩
  · rw [append_children, List.mem_append] at hd
    exact hd.elim (fun hd => (forall_preorder.mp hn.placed).2 d hd) fun hd => (hcs.laid d hd).placed
  · obtain ⟨hend, hapart⟩ := hn.clean (hcs.quiet ht)
    have hle := hcs.le
    obtain ⟨-, hstop⟩ : (p : Int) ≤ (n.append cs).span.start ∧ (n.append cs).span.stop ≤ t.pos := by
      refine append_bounds ⟨hn.low, by omega⟩ fun c hc => ?_
      have hlow := (hcs.laid c hc).low
      exact ⟨by omega, ((hcs.laid c hc).clean ht).1⟩
    refine ⟨hstop, forall_preorder.mpr ⟨?_, fun d hd => ?_⟩⟩
    · rw [Apart, append_children]
      refine (forall_preorder.mp hapart).1.append hcs.chain fun c hc d hd => ?_
      -- Without faults the children so far end where the next ones are read.
      have haround := hself.around c (List.mem_of_getLast? hc)
      have hlow := (hcs.laid d (List.mem_of_head? hd)).low
      have hahead := hcs.ahead
      omega
    · rw [append_children, List.mem_append] at hd
      exact hd.elim (fun hd => (forall_preorder.mp hapart).2 d hd) fun hd => ((hcs.laid d hd).clean ht).2
  · rw [append_text]
    exact hn.bare

theorem push (hn : Open setup p n s) (hc : Spanned setup q s c t) (hp : p ≤ q) : Open setup p (n.push c) t :=
  hn.append hc.single hp

theorem mono (hn : Open setup p n s) (hs : Onward setup s t) (hp : p' ≤ p) : Open setup p' n t :=
  ⟨hn.toLaid.mono hs hp, hn.bare⟩

/-- The end of a node is set behind the blanks after what was read below it. -/
theorem withStop (hn : Open setup p n s) (hs : Onward setup s t) (hstop : reach setup.src s.pos ≤ t.pos) :
    Open setup p { n with span := { n.span with stop := t.pos } } t := by
  have hself := hn.placed n n.mem_preorder_self
  have hhigh := hn.high
  have hle := hself.start_le
  have hreach := le_reach setup.src t.pos
  refine ⟨⟨forall_preorder.mpr ⟨⟨hself.start_nonneg, ?_, Int.ofNat_le.mpr hs.bound, fun c hc => ?_, ?_⟩, ?_⟩,
    hn.low, Int.ofNat_le.mpr hreach, fun ht => ⟨Int.le_refl _, forall_preorder.mpr ?_⟩⟩, hn.bare⟩
  · dsimp only
    omega
  · have haround := hself.around c hc
    dsimp only
    omega
  · exact fun htext => absurd hn.bare htext
  · exact (forall_preorder.mp hn.placed).2
  · obtain ⟨hchildren, hbelow⟩ := forall_preorder.mp (hn.clean (hs.quiet ht)).2
    exact ⟨hchildren, hbelow⟩

end Open

namespace Begun
variable {whole : Node}

theorem push (h : Begun setup p s n u) (hc : Spanned setup q u c t) : Begun setup p s (n.push c) t :=
  ⟨h.toOnward.trans hc.toOnward, h.ahead, Nat.le_trans h.behind hc.le,
    h.opened.push hc (Nat.le_trans h.behind hc.ahead)⟩

theorem append (h : Begun setup p s n u) (hcs : SpannedAll setup q u cs t) : Begun setup p s (n.append cs) t :=
  ⟨h.toOnward.trans hcs.toOnward, h.ahead, Nat.le_trans h.behind hcs.le,
    h.opened.append hcs (Nat.le_trans h.behind hcs.ahead)⟩

theorem enlarge (h : Begun setup p s n u) (hwhole : Enlarges setup q u n whole t) (hq : u.pos ≤ q) :
    Begun setup p s whole t :=
  ⟨h.toOnward.trans hwhole.toOnward, h.ahead, Nat.le_trans h.behind hwhole.le,
    hwhole.opened p (Nat.le_trans h.behind hq) h.opened⟩

theorem spanned (h : Begun setup p s n t) : Spanned setup p s n t := ⟨h.toOnward, h.ahead, h.opened.toLaid⟩

theorem before (h : Begun setup p s n u) (hu : Onward setup u t) : Begun setup p s n t :=
  ⟨h.toOnward.trans hu, h.ahead, Nat.le_trans h.behind hu.le, h.opened.mono hu (Nat.le_refl _)⟩

end Begun

namespace Enlarges
variable {node whole : Node}

theorem after (h : Enlarges setup q u n whole t) (hu : Onward setup s u) : Enlarges setup q s n whole t :=
  ⟨hu.trans h.toOnward, fun p hp hn => h.opened p hp (hn.mono hu (Nat.le_refl _))⟩

theorem before (h : Enlarges setup q s n whole u) (hu : Onward setup u t) : Enlarges setup q s n whole t :=
  ⟨h.toOnward.trans hu, fun p hp hn => (h.opened p hp hn).mono hu (Nat.le_refl _)⟩

theorem refl (hs : s.pos ≤ setup.src.length) (q : Nat) (n : Node) : Enlarges setup q s n n s := ⟨.refl hs, fun _ _ => id⟩

theorem push (n : Node) (hc : Spanned setup p s c t) (hq : q ≤ p) : Enlarges setup q s n (n.push c) t :=
  ⟨hc.toOnward, fun _ hp hn => hn.push hc (Nat.le_trans hp hq)⟩

theorem trans (h : Enlarges setup q s n node u) (h' : Enlarges setup p u node whole t) (hq : q ≤ p) :
    Enlarges setup q s n whole t :=
  ⟨h.toOnward.trans h'.toOnward, fun r hr hn => h'.opened r (Nat.le_trans hr hq) (h.opened r hr hn)⟩

end Enlarges

/-! ## Looks -/

/-- Where something is absent. -/
def Snapshot.front (setup : Setup) (s : Snapshot) : Nat := Token.skipBlank setup.src s.pos (s.parens == 0)

theorem Snapshot.le_front (setup : Setup) (s : Snapshot) : s.pos ≤ s.front setup := Token.le_skipBlank _ _ _

theorem Snapshot.front_le_reach (setup : Setup) (s : Snapshot) : s.front setup ≤ reach setup.src s.pos :=
  skipBlank_le_false _ _ _

theorem Looks.front_le (h : Looks setup exact s accept tok) (hk : tok.kind ≠ .eof) : s.front setup ≤ tok.start := by
  rw [(h.stands hk).start_eq, Snapshot.front]
  cases hparens : s.parens with
  | zero => 
    cases (s.accepted accept).has .newline with
    | true => exact Nat.le_refl _
    | false => exact Token.skipBlank_mono _ _
  | succ n =>
    have hline : (KindSet.of [.newline]).has .newline = true := by decide
    have hkeep : (s.accepted accept).has .newline = false := by
      rw [Snapshot.accepted, hparens, if_pos (Nat.succ_pos n), KindSet.eraseAll, KindSet.has_diff, hline,
        Bool.not_true, Bool.and_false]
    rw [hkeep]
    exact Nat.le_refl _

theorem Looks.start_eq_reach (h : Looks setup exact s accept tok) (hk : tok.kind ≠ .eof)
    (hline : tok.kind ≠ .newline) : tok.start = reach setup.src s.pos := by
  obtain ⟨bound, -, -, rfl⟩ := h
  exact Token.scan_start hk hline

/-- Where a line end would be seen and none is, nothing is absent before the next token. -/
theorem Looks.front_eq (h : Looks setup exact s accept tok) (hk : tok.kind ≠ .eof) (hline : tok.kind ≠ .newline)
    (haccept : accept.has .newline = true) : s.front setup = reach setup.src s.pos := by
  rw [← h.start_eq_reach hk hline, (h.stands hk).start_eq, Snapshot.front, Snapshot.accepted]
  cases s.parens with
  | zero =>
    rw [if_neg (Nat.lt_irrefl 0), haccept]
    rfl
  | succ n =>
    have hline : (KindSet.of [.newline]).has .newline = true := by decide
    rw [if_pos (Nat.succ_pos n), KindSet.eraseAll, KindSet.has_diff, hline, Bool.not_true, Bool.and_false]
    rfl

theorem Looks.onward (h : Looks setup exact s accept tok) (hk : tok.kind ≠ .eof) : Onward setup s (s.shift tok) :=
  ⟨Nat.le_of_lt (h.lt_stop hk), h.stop_le hk, id⟩

theorem Looks.spanned (h : Looks setup exact s accept tok) (hk : tok.kind ≠ .eof) (kind : Kind) :
    Spanned setup tok.start s (.leaf kind tok) (s.shift tok) := by
  have hstands := h.stands hk
  have hle := Nat.le_of_lt hstands.lt
  refine ⟨h.onward hk, h.start_le hk, .leaf rfl ⟨Int.natCast_nonneg _, Int.ofNat_le.mpr hle,
    Int.ofNat_le.mpr hstands.le, nofun, fun _ => ?_⟩ (Int.le_refl _) ?_ fun _ => Int.le_refl _⟩
  · exact hstands.text_eq.trans (Span.text_of_le hle hstands.le).symm
  · exact Int.ofNat_le.mpr (le_reach setup.src tok.stop)

/-- A node that starts with a token. -/
theorem Looks.begun (h : Looks setup exact s accept tok) (hk : tok.kind ≠ .eof) (kind k : Kind) :
    Begun setup tok.start s (.branch kind [.leaf k tok]) (s.shift tok) :=
  ⟨h.onward hk, h.start_le hk, Nat.le_of_lt (h.stands hk).lt, (h.spanned hk k).single.branch kind⟩

/-- A node that starts with a token that is no child of it. -/
theorem Looks.opens (h : Looks setup exact s accept tok) (hk : tok.kind ≠ .eof) (kind : Kind) :
    Begun setup tok.start s { kind, span := tok.span } (s.shift tok) :=
  ⟨h.onward hk, h.start_le hk, Nat.le_of_lt (h.stands hk).lt,
    .empty (t := s.shift tok) (Nat.le_of_lt (h.stands hk).lt) (h.stop_le hk)⟩

/-- A token starts with no blank. -/
theorem Looks.not_blank (h : Looks setup exact s accept tok) (hk : tok.kind ≠ .eof) (hline : tok.kind ≠ .newline)
    (b : UInt8) (hb : Token.IsBlank b) : b.toNat ≠ (tok.text.headD 0).toNat := by
  have hstands := h.stands hk
  have hstart := h.start_eq_reach hk hline
  have hlen := Nat.lt_of_lt_of_le hstands.lt hstands.le
  have hhead : tok.text.headD 0 = setup.src[tok.start] := by
    rw [hstands.text_eq, Text.extract, List.headD_eq_head?_getD, List.head?_take,
      if_neg (Nat.sub_ne_zero_of_lt hstands.lt), List.head?_drop, List.getElem?_eq_getElem hlen]
    rfl
  have hat : (setup.src.drop s.pos)[Token.blankLength false (setup.src.drop s.pos)]? = some setup.src[tok.start] := by
    rw [List.getElem?_drop, ← List.getElem?_eq_getElem hlen, hstart]
    rfl
  have hnot := Token.not_blank_at_blankLength hat
  rw [hhead]
  intro heq
  rw [← UInt8.toNat_inj.mp heq] at hnot
  rcases hb with hb | hb | hb | hb
  · exact hnot (.inl hb)
  · exact hnot (.inr (.inl hb))
  · exact hnot (.inr (.inr (.inl hb)))
  · exact hnot (.inr (.inr (.inr ⟨hb, rfl⟩)))

theorem reach_eq_of_quote {src : Text} {pos quote : Nat} (hquote : ∀ b, Token.IsBlank b → b.toNat ≠ quote)
    (hk : (Token.stringPiece src pos quote).kind = .quote) : reach src pos = pos := by
  by_contra hne
  have hlt := Nat.lt_of_le_of_ne (le_reach src pos) (Ne.symm hne)
  have hlen : pos < src.length := by
    have hstop := stringPiece_stop (tok_ne hk Token.Kind.noConfusion)
    omega
  -- A blank is a rune by itself, so it would be the quote.
  have hblank := Token.isBlank_of_skipped (Nat.le_refl pos) hlt (List.getElem?_eq_getElem hlen)
  have hascii : src[pos] < 0x80 := by
    rcases hblank with h | h | h | h <;> rw [h] <;> decide
  have hnext := Text.next?_cons_ascii hascii (src.drop (pos + 1))
  rw [← List.drop_eq_getElem_cons hlen] at hnext
  have hpiece := Token.pieceAt_piece (fun c _ => c == quote) hnext
  rw [Token.stringPiece, hnext] at hk
  dsimp only at hk
  rw [if_neg (hquote _ hblank)] at hk
  have hkind := hpiece.kind_mem
  rw [hk] at hkind
  exact absurd hkind (by decide)

/-- Nothing that stands where a token is seen, stands before it. -/
theorem Spanned.at_token (h : Spanned setup tok.start s n t) (hlook : Looks setup exact s accept tok)
    (hk : tok.kind ≠ .eof) : Spanned setup (s.front setup) s n t :=
  h.weaken (s.le_front setup) (hlook.front_le hk)

/-! ## Faults -/

theorem complain_faults_ne_nil (s : Snapshot) (c : Complaint) (span : Span) :
    (s.complain setup c span).faults ≠ [] := by
  change Snapshot.record setup s.faults c span ≠ []
  rw [Snapshot.record]
  split
  · simp
  · rename_i hfull
    rintro hnil
    rw [hnil] at hfull
    exact hfull (by decide)

theorem Spanned.fault (c : Complaint) {start stop : Nat} (hs : s.pos ≤ start) (hle : start ≤ stop)
    (hreach : stop ≤ reach setup.src t.pos) (ht : s.pos ≤ t.pos) (hbound : t.pos ≤ setup.src.length)
    (hfaults : t.faults ≠ []) : Spanned setup start s (faultNode setup c ⟨start, stop⟩) t := by
  have hstop := Nat.le_trans hreach (Token.skipBlank_le hbound false)
  exact ⟨⟨ht, hbound, fun h => absurd h hfaults⟩, hs, .leaf rfl ⟨Int.natCast_nonneg _, Int.ofNat_le.mpr hle,
    Int.ofNat_le.mpr hstop, nofun, fun _ => rfl⟩ (Int.le_refl _) (Int.ofNat_le.mpr hreach) fun h => absurd h hfaults⟩

theorem Spanned.here (hs : s.pos ≤ setup.src.length) (c : Complaint) :
    Spanned setup (s.front setup) s (faultNode setup c (s.here setup)) (s.complain setup c (s.here setup)) :=
  .fault c (s.le_front setup) (Nat.le_refl _) (s.front_le_reach setup) (Nat.le_refl _) hs (complain_faults_ne_nil _ _ _)

theorem Spanned.skip (hs : s.pos ≤ setup.src.length) (c : Complaint) :
    Spanned setup (s.front setup) s (faultNode setup c (s.junk setup)) (s.skip setup c) := by
  have hrange := skipRange_le s.parens hs
  exact .fault c (s.le_front setup) hrange.1 (le_reach _ _) (s.advances_skip c).le hrange.2
    (complain_faults_ne_nil _ _ _)

/-! ## Pieces -/

theorem piece_of_fragment {src : Text} {pos quote : Nat} (hk : (Token.stringPiece src pos quote).kind = .fragment) :
    Token.Piece src pos (Token.stringPiece src pos quote) := by
  rcases Token.stringPiece_cases src pos quote with ⟨h, -⟩ | ⟨width, h, -⟩ | h
  · rw [h] at hk
    cases hk
  · rw [h] at hk
    cases hk
  · exact h

theorem wordPiece_of_fragment {src : Text} {pos : Nat} (hk : (Token.wordPiece src pos).kind = .fragment) :
    Token.Piece src pos (Token.wordPiece src pos) := by
  rcases Token.wordPiece_cases src pos with h | h
  · rw [h] at hk
    cases hk
  · exact h

theorem Spanned.piece (h : Token.Piece setup.src s.pos tok) (hk : tok.kind ≠ .interpName) (kind : Kind) :
    Spanned setup s.pos s (.leaf kind tok) (s.advance tok) := by
  have hle : s.pos ≤ tok.stop := Nat.le_of_lt h.lt
  have hstart := h.start_eq
  refine ⟨⟨hle, h.le, id⟩, Nat.le_refl _, .leaf rfl ⟨Int.natCast_nonneg _, Int.ofNat_le.mpr (hstart ▸ hle),
    Int.ofNat_le.mpr h.le, nofun, fun _ => ?_⟩ (Int.ofNat_le.mpr (Nat.le_of_eq hstart.symm)) ?_ fun _ => Int.le_refl _⟩
  · exact (h.text_eq hk).trans (Span.text_of_le (hstart ▸ hle) h.le).symm
  · exact Int.ofNat_le.mpr (le_reach setup.src tok.stop)

/-- A node that starts before its only child. -/
theorem Laid.wrap {kind : Kind} (h : Laid setup q c t) (hp : p ≤ q) :
    Laid setup p { kind, span := ⟨p, c.span.stop⟩, children := [c] } t := by
  have hself := h.placed c c.mem_preorder_self
  have hle := hself.start_le
  have hlow := h.low
  refine ⟨forall_preorder.mpr ⟨⟨Int.natCast_nonneg _, ?_, hself.stop_le, ?_, fun h => absurd rfl h⟩, ?_⟩, Int.le_refl _,
    h.high, fun ht => ⟨(h.clean ht).1, forall_preorder.mpr ⟨.singleton _, ?_⟩⟩⟩
  · dsimp only
    omega
  · intro d hd
    rw [List.mem_singleton.mp hd]
    dsimp only
    omega
  · intro d hd
    rw [List.mem_singleton.mp hd]
    exact h.placed
  · intro d hd
    rw [List.mem_singleton.mp hd]
    exact (h.clean ht).2

theorem Spanned.pieceName (h : Token.Piece setup.src s.pos tok) (hk : tok.kind = .interpName) :
    Spanned setup s.pos s
      { kind := .interpolation
        span := tok.span
        children := [{ kind := .identifier, span := ⟨tok.start + 1, tok.stop⟩, text := tok.text }] }
      (s.advance tok) := by
  have hle : s.pos ≤ tok.stop := Nat.le_of_lt h.lt
  have hstart := h.start_eq
  have hstop : tok.start + 1 ≤ tok.stop := by
    rw [hstart]
    exact h.lt
  have hname : Laid setup (tok.start + 1) { kind := .identifier, span := ⟨(tok.start + 1 : Nat), tok.stop⟩, text := tok.text }
      (s.advance tok) :=
    .leaf rfl ⟨Int.natCast_nonneg _, Int.ofNat_le.mpr hstop, Int.ofNat_le.mpr h.le, nofun, fun _ =>
      (h.name_text_eq hk).trans (Span.text_of_le hstop h.le).symm⟩ (Int.le_refl _)
      (Int.ofNat_le.mpr (le_reach setup.src tok.stop)) fun _ => Int.le_refl _
  exact ⟨⟨hle, h.le, id⟩, Nat.le_refl _, hstart ▸ hname.wrap (Nat.le_succ _)⟩

/-! ## Productions without recursion -/

theorem Expects.spanned {k : Token.Kind} {kind : Kind} {c : Complaint} (hs : s.pos ≤ setup.src.length) (hk : k ≠ .eof)
    (h : Expects setup exact s accept k kind c n t) : Spanned setup (s.front setup) s n t := by
  cases h with
  | found hlook hkind =>
    have hne := tok_ne hkind hk
    exact (hlook.spanned hne kind).weaken (s.le_front setup) (hlook.front_le hne)
  | absent => exact .here hs c

theorem Colon.spanned (hs : s.pos ≤ setup.src.length) (h : Colon setup exact s n t) :
    Spanned setup (s.front setup) s n t :=
  Expects.spanned hs Token.Kind.noConfusion h

theorem EndStatement.spanned {stop : KindSet} {junk : Option Node} (hs : s.pos ≤ setup.src.length)
    (h : EndStatement setup exact s stop junk t) : SpannedAll setup (reach setup.src s.pos) s junk.toList t := by
  cases h with
  | clean => exact .nil (.refl hs) (le_reach _ _)
  | @junk tok hlook hends =>
    have hne : tok.kind ≠ .eof := fun h => hends (.inl h)
    have hline : tok.kind ≠ .newline := fun h => hends (.inr (.inl h))
    have haccept : (separators ∪ stop).has .newline = true := by
      rw [KindSet.has_union]
      rfl
    rw [← hlook.front_eq hne hline haccept]
    exact (Spanned.skip hs _).single

theorem CloseBody.enlarges {node whole : Node} {block : Bool} (hs : s.pos ≤ setup.src.length)
    (h : CloseBody setup exact s node block whole t) : Enlarges setup s.pos s node whole t := by
  cases h with
  | @closed tok hlook hk =>
    have hne : tok.kind ≠ .eof := tok_ne hk Token.Kind.noConfusion
    exact .push node (hlook.spanned hne .keyword) (hlook.start_le hne)
  | missing => exact .push node (.here hs _) (s.le_front setup)
  | without => exact .refl hs _ node

theorem CloseParen.enlarges {node whole : Node} (hs : s.pos ≤ setup.src.length)
    (h : CloseParen setup exact s node whole t) : Enlarges setup s.pos s node whole t := by
  cases h with
  | @closed tok hlook hk =>
    have hne : tok.kind ≠ .eof := tok_ne hk Token.Kind.noConfusion
    refine ⟨hlook.onward hne, fun p _ hn => hn.withStop (hlook.onward hne) ?_⟩
    rw [← hlook.start_eq_reach hne (tok_ne hk Token.Kind.noConfusion)]
    exact Nat.le_of_lt (hlook.stands hne).lt
  | missing => exact .push node (.here hs _) (s.le_front setup)

theorem Junk.enlarges {node whole : Node} (hs : s.pos ≤ setup.src.length) (h : Junk setup exact s node whole t) :
    Enlarges setup s.pos s node whole t := by
  induction h with
  | done => exact .refl hs _ _
  | @more s t node all tok _ _ _ ih =>
    have hskip : Spanned setup (s.front setup) s (faultNode setup (.unexpected tok) (s.junk setup))
        (s.skip setup (.unexpected tok)) := .skip hs _
    exact (Enlarges.push node hskip (s.le_front setup)).trans (ih hskip.bound) hskip.le

theorem DotGet.spanned (hheld : Held setup exact s tok) (hk : tok.kind ≠ .eof) (h : DotGet setup exact s tok n t) :
    Spanned setup (s.front setup) s n t := by
  obtain ⟨accept, hlook⟩ := hheld.looks
  have hbase := hlook.begun hk .dotGet .identifier
  have hpast {dot : Token} (hdot : Looks setup exact (s.shift tok) (.of [.dot]) dot) :
      Onward setup (s.shift tok) ((s.shift tok).pastDot dot) := by
    rw [Snapshot.pastDot]
    split
    · rename_i hkind
      exact hdot.onward (tok_ne hkind Token.Kind.noConfusion)
    · exact .refl hbase.bound
  cases h with
  | found hdot hprop hkind =>
    have hproperty := hprop.spanned (tok_ne hkind Token.Kind.noConfusion) .identifier
    exact (hbase.push (.after (hpast hdot) hproperty)).spanned.at_token hlook hk
  | absent hdot =>
    exact (hbase.push (.after (hpast hdot) (.here (hpast hdot).bound _))).spanned.at_token hlook hk

/-- A parameter list without parameters so far, or one that may get more. -/
def Lists (setup : Setup) (p : Nat) (node : Node) (s : Snapshot) : Prop :=
  node = { kind := .params, span := .zero } ∨ node.children ≠ [] ∧ Open setup p node s

theorem Lists.push (hnode : Lists setup p n s) (hp : p ≤ s.pos) (hc : Spanned setup q s c t) :
    Lists setup p (n.push c) t := by
  have hq := Nat.le_trans hp hc.ahead
  refine .inr ⟨List.append_ne_nil_of_right_ne_nil _ (List.cons_ne_nil _ _), ?_⟩
  rcases hnode with rfl | ⟨-, hopen⟩
  · exact (hc.single.branch .params).mono (.refl hc.bound) hq
  · exact hopen.push hc hq

theorem Params.lists {node list : Node} (h : Params setup exact s node list t) (hs : s.pos ≤ setup.src.length)
    (hp : p ≤ s.pos) (hnode : Lists setup p node s) : Onward setup s t ∧ Lists setup p list t := by
  induction h with
  | @name s t node list tok hlook hk _ ih =>
    have hname := hlook.spanned (tok_ne hk Token.Kind.noConfusion) .identifier
    obtain ⟨honward, hlist⟩ := ih hname.bound (Nat.le_trans hp hname.le) (hnode.push hp hname)
    exact ⟨hname.toOnward.trans honward, hlist⟩
  | @bad s t node list tok hlook hk _ ih =>
    have hne : tok.kind ≠ .eof := tok_ne hk Token.Kind.noConfusion
    have hfault : Spanned setup tok.start s (faultNode setup (.badParameter tok) tok.span)
        ((s.complain setup (.badParameter tok) tok.span).moveTo tok.stop) :=
      .fault _ (hlook.start_le hne) (Nat.le_of_lt (hlook.stands hne).lt) (le_reach _ _)
        (Nat.le_of_lt (hlook.lt_stop hne)) (hlook.stop_le hne) (complain_faults_ne_nil _ _ _)
    obtain ⟨honward, hlist⟩ := ih hfault.bound (Nat.le_trans hp hfault.le) (hnode.push hp hfault)
    exact ⟨hfault.toOnward.trans honward, hlist⟩
  | done => exact ⟨.refl hs, hnode⟩

theorem Params.spanned {list : Node} (h : Params setup exact s { kind := .params, span := .zero } list t)
    (hs : s.pos ≤ setup.src.length) : Spanned setup s.pos s (paramList list t.pos) t := by
  obtain ⟨honward, hlist⟩ := h.lists hs (Nat.le_refl _) (.inl rfl)
  refine ⟨honward, Nat.le_refl _, ?_⟩
  rcases hlist with rfl | ⟨hchildren, hopen⟩
  · exact (Open.empty (Nat.le_refl _) honward.bound).toLaid.mono (.refl honward.bound) honward.le
  · have hleaf : ¬ list.isLeaf = true := fun h => hchildren (List.isEmpty_iff.mp h)
    rw [paramList, if_neg hleaf]
    exact hopen.toLaid

theorem SpannedAll.block {stmts : List Node} (h : SpannedAll setup s.pos s stmts t) :
    Spanned setup s.pos s (blockNode t.pos stmts) t := by
  cases stmts with
  | nil => exact ⟨h.toOnward, Nat.le_refl _, (Open.empty (Nat.le_refl _) h.bound).toLaid.mono (.refl h.bound) h.le⟩
  | cons stmt stmts => exact ⟨h.toOnward, Nat.le_refl _, (h.branch .thenBlock).toLaid⟩

/-! ## Productions -/

/-- The nodes that a production reads, or what it reads below those that it was given. -/
@[reducible]
def Production.Spans (setup : Setup) : (p : Production) → Snapshot → p.Answer → Snapshot → Prop
  | .statements _, s, stmts, t => SpannedAll setup (reach setup.src s.pos) s stmts t
  | .inlineBody _, s, stmts, t => SpannedAll setup (s.front setup) s stmts t
  | .body _, s, (stmts, _), t => SpannedAll setup s.pos s stmts t
  | .inlineRest _, s, rest, t => ∀ stmts, rest = some stmts → SpannedAll setup (reach setup.src s.pos) s stmts t
  | .operators _ left, s, more, t => ∀ p s₀, Spanned setup p s₀ left s → Spanned setup p s₀ (more.getD left) t
  | .call id, s, node, t => ∀ p s₀, p ≤ s.pos → Spanned setup p s₀ id s → Spanned setup p s₀ node t
  | .stages node tok, s, whole, t => Enlarges setup tok.start s node whole t
  | .branches node _ _, s, whole, t | .args node _, s, whole, t | .wordPieces node, s, whole, t =>
    Enlarges setup s.pos s node whole t
  | .stringPieces quote node, s, whole, t =>
    (∀ b, Token.IsBlank b → b.toNat ≠ quote) → Enlarges setup s.pos s node whole t
  | .parenBody opening, s, node, t => Enlarges setup s.pos s { kind := .parenExpr, span := opening } node t
  | .piece _, s, node, t => Spanned setup s.pos s node t
  | .statement, s, node, t | .assign _, s, node, t | .functionDef _, s, node, t | .ifExpr _, s, node, t
  | .expression, s, node, t | .binary _ _, s, node, t | .operand _ _, s, node, t | .operandBody _ _, s, node, t
  | .arg _, s, node, t => Spanned setup (s.front setup) s node t

theorem newline_accepted (stop : KindSet) : (stmtStart ∪ separators ∪ stop).has .newline = true := by
  rw [KindSet.has_union, KindSet.has_union]
  rfl

theorem Reads.spanned {p : Production} {a : p.Answer} (h : Reads setup exact p s a t)
    (hs : s.pos ≤ setup.src.length) : p.Spans setup s a t := by
  induction h with
  | halted => exact .nil (.refl hs) (le_reach _ _)
  | off => exact .nil (.faulty (Nat.le_refl _) hs (complain_faults_ne_nil _ _ _)) (le_reach _ _)
  | noMore => exact .nil (.same hs rfl rfl) (le_reach _ _)
  | @separator s t stop tok stmts _ _ hlook _ hk _ ih =>
    have hne : tok.kind ≠ .eof := by rcases hk with h | h <;> rw [h] <;> exact Token.Kind.noConfusion
    have hcount : Onward setup s s.count := .same hs rfl rfl
    have hshift := hcount.trans (hlook.onward hne)
    exact (SpannedAll.after hshift (ih hshift.bound)).weaken (le_reach _ _) (reach_mono _ hshift.le)
  | @next s s₁ s₂ t stop tok stmt junk stmts _ _ hlook hends hk _ hjunk _ ihstmt ihrest =>
    have hcount : Onward setup s s.count := .same hs rfl rfl
    have hfront : s.count.front setup = reach setup.src s.pos :=
      hlook.front_eq (fun h => hends (.inl h)) (fun h => hk (.inl h)) (newline_accepted stop)
    have hstmt : Spanned setup (reach setup.src s.pos) s.count stmt s₁ := hfront ▸ ihstmt hs
    have hbehind := hjunk.spanned hstmt.bound
    have hrest := hbehind.append (ihrest hbehind.bound) (reach_mono _ hbehind.le) (Nat.le_refl _)
    exact .after hcount (.cons hstmt hrest hstmt.laid.high)
  | assignment _ _ _ ih | evaluate _ _ _ _ ih | function _ _ ih | conditional _ _ ih => exact ih hs
  | noStatement | tooDeep => exact .skip hs _
  | @assign s s₁ t tok op value hheld hk hop _ ih =>
    obtain ⟨accept, hlook⟩ := hheld.looks
    have hne : tok.kind ≠ .eof := tok_ne hk Token.Kind.noConfusion
    have htarget := hlook.begun hne .assign .assignable
    have hoperator := htarget.push (Expects.spanned htarget.bound Token.Kind.noConfusion hop)
    have hnode := hoperator.push (ih hoperator.bound)
    have hreduce : Onward setup t (t.reduce .assign) := .same hnode.bound rfl rfl
    exact (hnode.before hreduce).spanned.at_token hlook hne
  | @block s t _ _ _ _ _ _ ih | @inlined s t _ _ _ _ _ _ _ ih =>
    have hflat : Onward setup s (s.withParens 0) := .same hs rfl rfl
    have hstmts := ih hs
    have hnested : Onward setup t (t.withParens s.parens) := .same hstmts.bound rfl rfl
    exact (SpannedAll.after hflat (hstmts.before hnested)).weaken (Nat.le_refl _) hstmts.ahead
  | noBody => exact .nil (.same hs rfl rfl) (Nat.le_refl _)
  | several _ _ ihfirst ihrest =>
    have hfirst := ihfirst hs
    exact .cons hfirst (ihrest hfirst.bound _ rfl) hfirst.laid.high
  | @single s s₁ t _ _ _ _ ihfirst _ =>
    have hfirst := ihfirst hs
    have hback : Onward setup s₁ (s₁.back t.looks) := .same hfirst.bound rfl rfl
    exact (hfirst.before hback).single
  | restClosed =>
    rintro _ ⟨⟩
    exact .nil (.refl hs) (le_reach _ _)
  | restOpen | restOpenNext => rintro _ ⟨⟩
  | restClosedNext hlook _ hk =>
    rintro _ ⟨⟩
    exact .nil (hlook.onward (tok_ne hk Token.Kind.noConfusion)) (le_reach _ _)
  | @restMore s s₁ t closers tok next stmt rest hlook _ hk hnext _ hstart _ _ ihstmt ihrest =>
    intro stmts hstmts
    obtain ⟨rest, hrest, rfl⟩ := Option.map_eq_some_iff.mp hstmts
    have hshift := hlook.onward (tok_ne hk Token.Kind.noConfusion)
    have hnotStart : stmtStart.has .eof = false ∧ stmtStart.has .newline = false := by decide
    have hne : next.kind ≠ .eof := fun h => by rw [h, hnotStart.1] at hstart; cases hstart
    have hline : next.kind ≠ .newline := fun h => by rw [h, hnotStart.2] at hstart; cases hstart
    have hfront := hnext.front_eq hne hline (newline_accepted closers)
    have hstmt : Spanned setup (reach setup.src (s.shift tok).pos) (s.shift tok) stmt s₁ := hfront ▸ ihstmt hshift.bound
    exact (SpannedAll.after hshift (.cons hstmt (ihrest hstmt.bound rest hrest) hstmt.laid.high)).weaken
      (le_reach _ _) (reach_mono _ hshift.le)
  | @functionDef s s₁ s₂ s₃ t tok list c node stmts block hheld hk hparams hcolon _ hclose ih =>
    obtain ⟨accept, hlook⟩ := hheld.looks
    have hne : tok.kind ≠ .eof := tok_ne hk Token.Kind.noConfusion
    have hkeyword := hlook.begun hne .functionDef .keyword
    have hlist := hkeyword.push (hparams.spanned hkeyword.bound)
    have hhead := hlist.before (.same (t := s₁.reduce .params) hlist.bound rfl rfl)
    have hintro := hhead.push (hcolon.spanned hhead.bound)
    have hbody := hintro.append (ih hintro.bound)
    have hnode := hbody.enlarge (hclose.enlarges hbody.bound) (Nat.le_refl _)
    have hreduce : Onward setup t (t.reduce .functionDef) := .same hnode.bound rfl rfl
    exact (hnode.before hreduce).spanned.at_token hlook hne
  | @ifExpr s s₁ s₂ s₃ t tok condition c node stmts block hheld hk _ hcolon _ _ ihcondition ihbody ihbranches =>
    obtain ⟨accept, hlook⟩ := hheld.looks
    have hne : tok.kind ≠ .eof := tok_ne hk Token.Kind.noConfusion
    have hkeyword := hlook.begun hne .ifExpr .keyword
    have hcondition := hkeyword.push (ihcondition hkeyword.bound)
    have hintro := hcondition.push (hcolon.spanned hcondition.bound)
    have hbody := hintro.push (ihbody hintro.bound).block
    exact (hbody.enlarge (ihbranches hbody.bound) (Nat.le_refl _)).spanned.at_token hlook hne
  | @elsif s s₁ s₂ s₃ t tok node condition c whole stmts block b seenElse hlook hk _ hcolon _ _ ihcondition ihbody ihbranches =>
    have hne : tok.kind ≠ .eof := tok_ne hk Token.Kind.noConfusion
    have hkeyword := hlook.begun hne .elsifExpr .keyword
    have hcondition := hkeyword.push (ihcondition hkeyword.bound)
    have hintro := hcondition.push (hcolon.spanned hcondition.bound)
    have hbranch := (hintro.push (ihbody hintro.bound).block).spanned
    exact (Enlarges.push node hbranch hbranch.ahead).trans (ihbranches hbranch.bound) hbranch.le
  | @otherwise s s₂ s₃ t tok node c whole stmts block b seenElse hlook hk hcolon _ _ ihbody ihbranches =>
    have hne : tok.kind ≠ .eof := tok_ne hk Token.Kind.noConfusion
    have hkeyword := hlook.begun hne .elseExpr .keyword
    have hintro := hkeyword.push (hcolon.spanned hkeyword.bound)
    have hbranch := (hintro.push (ihbody hintro.bound).block).spanned
    exact (Enlarges.push node hbranch hbranch.ahead).trans (ihbranches hbranch.bound) hbranch.le
  | endIf _ _ _ hclose => exact hclose.enlarges hs
  | @pipe s s₁ t tok left node _ hlook hk _ ihleft ihstages =>
    have hleft := ihleft hs
    have hstages := ihstages hleft.bound
    have hle : s.front setup ≤ tok.start := by
      rw [hlook.start_eq_reach (tok_ne hk Token.Kind.noConfusion) (tok_ne hk Token.Kind.noConfusion)]
      exact hleft.laid.low_le
    exact ⟨hleft.toOnward.trans hstages.toOnward, hleft.ahead,
      (hstages.opened _ hle (hleft.single.branch .pipeExpr)).toLaid⟩
  | alone _ _ _ ih => exact ih hs
  | @stage s s₁ t tok next node value whole hheld hkind _ hlook hk _ ihvalue ihrest =>
    obtain ⟨accept, htok⟩ := hheld.looks
    have hne : tok.kind ≠ .eof := tok_ne hkind Token.Kind.noConfusion
    have hoperator := htok.spanned hne .operator
    have hvalue := ihvalue hoperator.bound
    have hrest := ihrest hvalue.bound
    have hstop : tok.start ≤ tok.stop := Nat.le_of_lt (htok.stands hne).lt
    have hbehind : tok.start ≤ next.start :=
      Nat.le_trans hstop (Nat.le_trans hvalue.le (hlook.start_le (tok_ne hk Token.Kind.noConfusion)))
    exact ((Enlarges.push node hoperator (Nat.le_refl _)).trans (.push _ hvalue (Nat.le_refl _))
      (Nat.le_trans hstop hvalue.ahead)).trans hrest hbehind
  | @lastStage s t tok next node value hheld hkind _ _ _ ih =>
    obtain ⟨accept, htok⟩ := hheld.looks
    have hne : tok.kind ≠ .eof := tok_ne hkind Token.Kind.noConfusion
    have hoperator := htok.spanned hne .operator
    have hvalue := ih hoperator.bound
    have hstop : tok.start ≤ tok.stop := Nat.le_of_lt (htok.stands hne).lt
    exact (Enlarges.push node hoperator (Nat.le_refl _)).trans (.push _ hvalue (Nat.le_refl _))
      (Nat.le_trans hstop hvalue.ahead)
  | operation _ _ _ ihleft ihops | justOperand _ _ _ _ ihleft ihops =>
    have hleft := ihleft hs
    exact ihops hleft.bound _ _ hleft
  | lone _ _ _ _ ihleft ihops =>
    have hleft := ihleft hs
    have hwhole := ihops hleft.bound _ _ hleft
    exact ⟨hwhole.toOnward, hwhole.ahead, (hwhole.single.branch _).toLaid⟩
  | noOperator => exact fun _ _ hleft => hleft
  | @operator s s₁ t tok minPrec left right more hlook hprec _ _ ihright ihmore =>
    intro p s₀ hleft
    have hquiet := isQuiet_of_precedence hprec
    have hne : tok.kind ≠ .eof := ne_eof_of_isQuiet hquiet
    have hoperator := hlook.spanned hne .operator
    have hright := ihright hoperator.bound
    have hline : tok.kind ≠ .newline := fun h => hprec (.inl (by rw [h]; rfl))
    have hbefore : left.span.stop ≤ tok.start := by
      rw [hlook.start_eq_reach hne hline]
      exact hleft.laid.high
    have hnode := SpannedAll.cons hleft (.cons hoperator hright.single (Int.ofNat_le.mpr hright.ahead)) hbefore
    exact ihmore hnode.bound p s₀ ⟨hnode.toOnward, hnode.ahead, (hnode.branch _).toLaid⟩
  | @operand s t tok callable node _ _ _ ih =>
    have hdeep : Onward setup s s.deepen := .same hs rfl rfl
    have hnode := ih hs
    have hback : Onward setup t (t.withDepth s.depth) := .same hnode.bound rfl rfl
    exact .after hdeep (hnode.before hback)
  | literal hheld hk =>
    obtain ⟨accept, hlook⟩ := hheld.looks
    have hne := literalKind?_ne_eof hk
    exact (hlook.spanned hne _).at_token hlook hne
  | @string s t tok callable node hheld hk _ ih =>
    obtain ⟨accept, hlook⟩ := hheld.looks
    have hne : tok.kind ≠ .eof := tok_ne hk Token.Kind.noConfusion
    have hquote := hlook.opens hne .string
    have hpieces := ih hquote.bound (hlook.not_blank hne (tok_ne hk Token.Kind.noConfusion))
    exact (hquote.enlarge hpieces (Nat.le_refl _)).spanned.at_token hlook hne
  | @word s t tok callable node hheld hk _ ih =>
    obtain ⟨accept, hlook⟩ := hheld.looks
    have hne : tok.kind ≠ .eof := tok_ne hk Token.Kind.noConfusion
    have hbound := Nat.le_trans (Nat.le_of_lt (hlook.stands hne).lt) (hlook.stop_le hne)
    have hword : Begun setup tok.start s { kind := .word, span := .point tok.start } (s.moveTo tok.start) :=
      ⟨⟨hlook.start_le hne, hbound, id⟩, hlook.start_le hne, Nat.le_refl _,
        .empty (t := s.moveTo tok.start) (Nat.le_refl _) hbound⟩
    exact (hword.enlarge (ih hbound) (Nat.le_refl _)).spanned.at_token hlook hne
  | @callee s t tok node hheld hk _ ih =>
    obtain ⟨accept, hlook⟩ := hheld.looks
    have hne : tok.kind ≠ .eof := tok_ne hk Token.Kind.noConfusion
    have hname := hlook.spanned hne .identifier
    exact (ih hname.bound _ _ (Nat.le_of_lt (hlook.stands hne).lt) hname).at_token hlook hne
  | name hheld hk =>
    obtain ⟨accept, hlook⟩ := hheld.looks
    have hne : _ ≠ Token.Kind.eof := tok_ne hk Token.Kind.noConfusion
    exact (hlook.spanned hne _).at_token hlook hne
  | dotGet hheld hk h => exact h.spanned hheld (tok_ne hk Token.Kind.noConfusion)
  | @group s t tok callable node hheld hk _ ih =>
    obtain ⟨accept, hlook⟩ := hheld.looks
    have hne : tok.kind ≠ .eof := tok_ne hk Token.Kind.noConfusion
    have hgroup := hlook.opens hne .parenExpr
    exact (hgroup.enlarge (ih hgroup.bound) (Nat.le_refl _)).spanned.at_token hlook hne
  | noOperand => exact .here hs _
  | @badOperand s tok callable hheld _ hk =>
    obtain ⟨accept, hlook⟩ := hheld.looks
    have hne : tok.kind ≠ .eof := by
      intro heof
      rw [heof] at hk
      cases hk
    have hfault : Spanned setup tok.start s (faultNode setup (.unexpected tok) tok.span)
        ((s.moveTo tok.stop).complain setup (.unexpected tok) tok.span) :=
      .fault _ (hlook.start_le hne) (Nat.le_of_lt (hlook.stands hne).lt) (le_reach _ _)
        (Nat.le_of_lt (hlook.lt_stop hne)) (hlook.stop_le hne) (complain_faults_ne_nil _ _ _)
    exact hfault.at_token hlook hne
  | glued | noArgs => exact fun _ _ _ hid => hid
  | withArgs _ _ _ _ ih =>
    intro p s₀ hp hid
    have hargs := ih hid.bound
    exact ⟨hid.toOnward.trans hargs.toOnward, hid.ahead, (hargs.opened p hp (hid.single.branch .functionCall)).toLaid⟩
  | moreArgs _ _ _ _ iharg ihrest =>
    have harg := iharg hs
    exact (Enlarges.push _ harg harg.ahead).trans (ihrest harg.bound) harg.le
  | lastArg _ _ _ ih =>
    have harg := ih hs
    exact .push _ harg harg.ahead
  | positional _ _ ih =>
    have hvalue := ih hs
    exact ⟨hvalue.toOnward, hvalue.ahead, (hvalue.single.branch .positionalArg).toLaid⟩
  | @named s t tok next value hheld hk _ _ _ ih =>
    obtain ⟨accept, hlook⟩ := hheld.looks
    have hne : tok.kind ≠ .eof := tok_ne hk Token.Kind.noConfusion
    have hname := hlook.begun hne .namedArg .argName
    exact (hname.push (ih hname.bound)).spanned.at_token hlook hne
  | @noValue s tok next hheld hk =>
    obtain ⟨accept, hlook⟩ := hheld.looks
    have hne : tok.kind ≠ .eof := tok_ne hk Token.Kind.noConfusion
    have hname := hlook.begun hne .namedArg .argName
    exact (hname.push (.here hname.bound _)).spanned.at_token hlook hne
  | @emptyGroup s t opening tok node _ _ hclose =>
    have henter : Onward setup s s.enter := .same hs rfl rfl
    have hnode := hclose.enlarges (s := s.enter) hs
    have hleave : Onward setup t t.leave := .same hnode.bound rfl rfl
    exact (Enlarges.before hnode hleave).after henter
  | @fullGroup s s₁ s₂ t opening tok value inner node _ _ _ hjunk hclose ih =>
    have henter : Onward setup s s.enter := .same hs rfl rfl
    have hvalue := ih hs
    have hinner := hjunk.enlarges hvalue.bound
    have hnode := hclose.enlarges hinner.bound
    have hleave : Onward setup t t.leave := .same hnode.bound rfl rfl
    have hbody := ((Enlarges.push _ hvalue hvalue.ahead).trans hinner hvalue.le).trans hnode
      (Nat.le_trans hvalue.le hinner.le)
    exact (hbody.before hleave).after henter
  | @closeQuote s quote node hk =>
    intro hquote
    have hstop := stringPiece_stop (tok_ne hk Token.Kind.noConfusion)
    have hadvance : Onward setup s (s.advance (Token.stringPiece setup.src s.pos quote)) :=
      ⟨Nat.le_of_lt hstop.1, hstop.2, id⟩
    refine ⟨hadvance, fun p _ hn => hn.withStop hadvance ?_⟩
    rw [reach_eq_of_quote hquote hk]
    exact hadvance.le
  | @unterminated s quote node hpos hk =>
    intro _
    have hfault : Spanned setup setup.src.length s
        (faultNode setup .unterminatedString ⟨setup.src.length, setup.src.length⟩)
        ((s.complain setup .unterminatedString (.point setup.src.length)).moveTo setup.src.length) :=
      .fault _ hpos (Nat.le_refl _) (le_reach _ _) hpos (Nat.le_refl _) (complain_faults_ne_nil _ _ _)
    exact .push node hfault hpos
  | stringText hk _ ih =>
    intro hquote
    have hpiece := Spanned.piece (piece_of_fragment hk) (tok_ne hk Token.Kind.noConfusion) .stringFragment
    exact (Enlarges.push _ hpiece (Nat.le_refl _)).trans (ih hpiece.bound hquote) hpiece.le
  | stringPart _ _ ihpiece ih =>
    intro hquote
    have hpiece := ihpiece hs
    exact (Enlarges.push _ hpiece (Nat.le_refl _)).trans (ih hpiece.bound hquote) hpiece.le
  | endWord => exact .refl hs _ _
  | wordText hk _ ih =>
    have hpiece := Spanned.piece (wordPiece_of_fragment hk) (tok_ne hk Token.Kind.noConfusion) .wordFragment
    exact (Enlarges.push _ hpiece (Nat.le_refl _)).trans (ih hpiece.bound) hpiece.le
  | wordPart _ _ ihpiece ih =>
    have hpiece := ihpiece hs
    exact (Enlarges.push _ hpiece (Nat.le_refl _)).trans (ih hpiece.bound) hpiece.le
  | escape hpiece hk => exact .piece hpiece (tok_ne hk Token.Kind.noConfusion) .escape
  | interpolatedName hpiece hk => exact .pieceName hpiece hk
  | @interpolated s t tok paren hpiece _ _ ih =>
    have hle := Nat.le_of_lt hpiece.lt
    have hadvance : Onward setup s (s.advance tok) := ⟨hle, hpiece.le, id⟩
    have hstart : tok.start + 1 ≤ tok.stop := by
      rw [hpiece.start_eq]
      exact hpiece.lt
    have hopening : Open setup (tok.start + 1) { kind := .parenExpr, span := ⟨(tok.start + 1 : Nat), tok.stop⟩ }
        (s.advance tok) := .empty (t := s.advance tok) hstart hadvance.bound
    have hparen := ih hadvance.bound
    have hnode : Laid setup tok.start
        { kind := .interpolation, span := ⟨tok.start, paren.span.stop⟩, children := [paren] } t :=
      (hparen.opened _ hstart hopening).wrap (Nat.le_succ tok.start)
    exact ⟨hadvance.trans hparen.toOnward, Nat.le_refl _, hpiece.start_eq ▸ hnode⟩

end

/-! ## Parses -/

/-- What is left of the source stands behind the statements that were read. -/
theorem SpannedAll.unread {setup : Setup} {t : Snapshot} (ht : t.pos ≤ setup.src.length) :
    SpannedAll setup (reach setup.src t.pos) t (unread setup t) (t.moveTo setup.src.length) := by
  have hrest : Onward setup t (t.moveTo setup.src.length) := ⟨ht, Nat.le_refl _, id⟩
  rw [Grammar.unread]
  split
  · rename_i hstopped
    have hle : reach setup.src t.pos ≤ setup.src.length := Nat.le_of_lt hstopped.2
    have hnode : Laid setup (reach setup.src t.pos)
        (faultNode setup .stopped ⟨Token.skipBlank setup.src t.pos false, setup.src.length⟩)
        (t.moveTo setup.src.length) :=
      .leaf rfl ⟨Int.natCast_nonneg _, Int.ofNat_le.mpr hle, Int.le_refl _, nofun, fun _ => rfl⟩ (Int.le_refl _)
        (Int.ofNat_le.mpr (le_reach setup.src setup.src.length)) fun _ => Int.le_refl _
    exact Spanned.single ⟨hrest, le_reach _ _, hnode⟩
  · exact .nil hrest (le_reach _ _)

/-- Whatever the source, spans of the tree lie in the source and around those of their children, and text is that
of its span. If no fault was reported, siblings stand one behind the other. -/
theorem parse_spans (setup : Setup) :
    (∀ n ∈ (parse setup).tree.preorder, n.Placed setup.src) ∧
      ((parse setup).faults = [] → ∀ n ∈ (parse setup).tree.preorder, n.Apart) := by
  obtain ⟨stmts, t, h⟩ := parse_outcome setup False fun hfalse => hfalse.elim
  have hstmts : SpannedAll setup (reach setup.src 0) .origin stmts t := h.reads.spanned (Nat.zero_le _)
  have hall := hstmts.append (.unread hstmts.bound) (reach_mono _ hstmts.le) (Nat.le_refl _)
  have hend : reach setup.src setup.src.length ≤ setup.src.length := Token.skipBlank_le (Nat.le_refl _) false
  rw [h.tree_eq, h.faults_eq]
  refine ⟨forall_preorder.mpr ⟨⟨Int.le_refl _, Int.natCast_nonneg _, Int.le_refl _, fun c hc => ?_, fun h => absurd rfl h⟩,
    fun c hc => (hall.laid c hc).placed⟩, fun hfaults => forall_preorder.mpr ⟨hall.chain, fun c hc =>
      ((hall.laid c hc).clean hfaults).2⟩⟩
  exact ⟨((hall.laid c hc).placed c c.mem_preorder_self).start_nonneg,
    Int.le_trans (hall.laid c hc).high (Int.ofNat_le.mpr hend)⟩

end Grammar
end Bareword.Tree

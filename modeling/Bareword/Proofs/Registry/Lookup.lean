import Bareword.Proofs.Text.Order
import Bareword.Registry.Basic

/-! # What a table of commands finds

A table keeps its commands sorted by name, those of one name in the order in which they were entered. So a
binary search with a scan from where it ends finds what a search of the whole list would find.

* `Ordered`, `named`: lists of commands in the order of their names, the commands of one name.
* `Ordered.eq_of_named`: an ordered list is given by its commands of each name.
* `Ordered.lookup_eq`: looking up in an ordered list is filtering it.
* `Change`, `built`, `entered`: how tables come about, and which commands were entered into them.
* `lookup_eq_search`: what every table finds.
-/

namespace Bareword.Registry
set_option autoImplicit false

/-- The commands are in the order of their names. -/
def Ordered (cs : List Command) : Prop := cs.Pairwise fun c d => c.name ≤ d.name

/-- The commands of a name, in the order of the list. -/
def named (n : Text) (cs : List Command) : List Command := cs.filter fun c => c.name == n

variable {c d : Command} {cs ds : List Command} {m n p : Text}

theorem named_cons_self (c : Command) (cs : List Command) : named c.name (c :: cs) = c :: named c.name cs :=
  List.filter_cons_of_pos (beq_self_eq_true c.name)

theorem named_cons_of_ne (h : c.name ≠ n) (cs : List Command) : named n (c :: cs) = named n cs :=
  List.filter_cons_of_neg (by simpa using h)

theorem named_append (n : Text) (cs ds : List Command) : named n (cs ++ ds) = named n cs ++ named n ds :=
  List.filter_append ..

theorem named_eq_nil (h : ∀ c ∈ cs, c.name ≠ n) : named n cs = [] :=
  List.filter_eq_nil_iff.mpr fun c hc => by simpa using h c hc

theorem named_others_self (n : Text) (cs : List Command) : named n (cs.filter fun c => c.name != n) = [] :=
  named_eq_nil fun c hc => by simpa using (List.mem_filter.mp hc).2

theorem named_others (h : n ≠ m) (cs : List Command) : named n (cs.filter fun c => c.name != m) = named n cs := by
  rw [named, named, List.filter_filter]
  refine List.filter_congr fun c _ => ?_
  grind

/-- Of two ordered lists with the same commands of each name, the first name of one is not before that of the
other. -/
theorem Ordered.head_le (hds : Ordered (d :: ds)) (h : named c.name (c :: cs) = named c.name (d :: ds)) :
    d.name ≤ c.name := by
  have hmem : c ∈ named c.name (d :: ds) := by
    rw [← h, named_cons_self]
    exact List.mem_cons_self
  rcases List.mem_cons.mp (List.mem_of_mem_filter hmem) with rfl | hmem
  · exact List.le_refl _
  · exact (List.pairwise_cons.mp hds).1 c hmem

/-- An ordered list is given by its commands of each name. -/
theorem Ordered.eq_of_named (hcs : Ordered cs) (hds : Ordered ds) (h : ∀ n, named n cs = named n ds) : cs = ds := by
  induction cs generalizing ds with
  | nil =>
    cases ds with
    | nil => rfl
    | cons d ds =>
      have hd := h d.name
      rw [named_cons_self] at hd
      exact absurd hd (List.cons_ne_nil _ _).symm
  | cons c cs ih =>
    cases ds with
    | nil =>
      have hc := h c.name
      rw [named_cons_self] at hc
      exact absurd hc (List.cons_ne_nil _ _)
    | cons d ds =>
      have hname : c.name = d.name := List.le_antisymm (hcs.head_le (h d.name).symm) (hds.head_le (h c.name))
      have hhead := h c.name
      rw [named_cons_self, hname, named_cons_self, List.cons.injEq] at hhead
      obtain ⟨rfl, htail⟩ := hhead
      rw [ih (List.pairwise_cons.mp hcs).2 (List.pairwise_cons.mp hds).2 fun n => ?_]
      by_cases hn : c.name = n
      · exact hn ▸ htail
      · have hrest := h n
        rwa [named_cons_of_ne hn, named_cons_of_ne hn] at hrest

/-! ## Sorting -/

theorem mem_insertCommand : d ∈ insertCommand c cs ↔ d = c ∨ d ∈ cs := by
  induction cs with
  | nil => rw [insertCommand, List.mem_cons]
  | cons e cs ih =>
    rw [insertCommand]
    split
    · rw [List.mem_cons]
    · rw [List.mem_cons, ih, List.mem_cons, or_left_comm]

theorem Ordered.insertCommand (h : Ordered cs) (c : Command) : Ordered (insertCommand c cs) := by
  induction cs with
  | nil => exact List.pairwise_singleton _ _
  | cons e cs ih =>
    obtain ⟨he, hcs⟩ := List.pairwise_cons.mp h
    rw [Registry.insertCommand]
    split
    · rename_i hbefore
      have hle : c.name ≤ e.name := List.le_of_lt ((Text.before_iff _ _).mp hbefore)
      refine List.pairwise_cons.mpr ⟨fun d hd => ?_, h⟩
      rcases List.mem_cons.mp hd with rfl | hd
      · exact hle
      · exact List.le_trans hle (he d hd)
    · rename_i hbefore
      rw [Bool.not_eq_true, Text.before_eq_false_iff] at hbefore
      refine List.pairwise_cons.mpr ⟨fun d hd => ?_, ih hcs⟩
      rcases mem_insertCommand.mp hd with rfl | hd
      · exact hbefore
      · exact he d hd

/-- A command is inserted after those of its name. -/
theorem Ordered.named_insertCommand (h : Ordered cs) (c : Command) (n : Text) :
    named n (Registry.insertCommand c cs) = named n cs ++ named n [c] := by
  induction cs with
  | nil => rfl
  | cons e cs ih =>
    obtain ⟨he, hcs⟩ := List.pairwise_cons.mp h
    rw [Registry.insertCommand]
    split
    · rename_i hbefore
      rw [Text.before_iff] at hbefore
      by_cases hn : c.name = n
      · -- All that follows has a greater name.
        have hnone : named n (e :: cs) = [] := named_eq_nil fun d hd hdn => by
          have hlt : c.name < d.name := by
            rcases List.mem_cons.mp hd with rfl | hd
            · exact hbefore
            · exact Std.lt_of_lt_of_le hbefore (he d hd)
          rw [hdn, hn] at hlt
          exact List.lt_irrefl _ hlt
        rw [← List.singleton_append, named_append, hnone, List.append_nil, List.nil_append]
      · rw [named_cons_of_ne hn, named_cons_of_ne hn []]
        exact (List.append_nil _).symm
    · rw [← List.singleton_append, named_append, ih hcs, ← List.append_assoc, ← named_append, List.singleton_append]

theorem foldl_insertCommand (h : Ordered ds) (cs : List Command) :
    Ordered (cs.foldl (fun sorted c => insertCommand c sorted) ds) ∧
      ∀ n, named n (cs.foldl (fun sorted c => insertCommand c sorted) ds) = named n ds ++ named n cs := by
  induction cs generalizing ds with
  | nil => exact ⟨h, fun n => (List.append_nil _).symm⟩
  | cons c cs ih =>
    obtain ⟨hordered, hnamed⟩ := ih (h.insertCommand c)
    refine ⟨hordered, fun n => ?_⟩
    rw [List.foldl_cons, hnamed, h.named_insertCommand, List.append_assoc, ← named_append, List.singleton_append]

theorem ordered_ofList (cs : List Command) : Ordered (ofList cs).commands := (foldl_insertCommand .nil cs).1

theorem named_ofList (n : Text) (cs : List Command) : named n (ofList cs).commands = named n cs :=
  (foldl_insertCommand .nil cs).2 n

/-- A command that is added is the only one of its name then. -/
theorem named_add (r : Registry) (c : Command) : named c.name (r.add c).commands = [c] := by
  rw [add, named_ofList, named_append, named_others_self, named_cons_self]
  rfl

theorem named_add_of_ne (h : n ≠ c.name) (r : Registry) : named n (r.add c).commands = named n r.commands := by
  rw [add, named_ofList, named_append, named_others h, named_cons_of_ne h.symm]
  exact List.append_nil _

theorem Ordered.others_add {r : Registry} (h : Ordered r.commands) (c : Command) :
    ((r.add c).commands.filter fun d => d.name != c.name) = r.commands.filter fun d => d.name != c.name := by
  refine Ordered.eq_of_named ((ordered_ofList _).filter _) (h.filter _) fun n => ?_
  by_cases hn : n = c.name
  · rw [hn, named_others_self, named_others_self]
  · rw [named_others hn, named_others hn, named_add_of_ne hn]

/-! ## Looking up -/

/-- The part of a list before the first element without a property is all that has it, if elements before one
that has it have it too. -/
theorem takeWhile_eq_filter {α : Type} {q : α → Bool} {l : List α} (h : l.Pairwise fun a b => q b = true → q a = true) :
    l.takeWhile q = l.filter q := by
  induction l with
  | nil => rfl
  | cons a l ih =>
    obtain ⟨ha, hl⟩ := List.pairwise_cons.mp h
    by_cases hq : q a = true
    · rw [List.takeWhile_cons_of_pos hq, List.filter_cons_of_pos hq, ih hl]
    · rw [List.takeWhile_cons_of_neg hq, List.filter_cons_of_neg hq]
      exact (List.filter_eq_nil_iff.mpr fun b hb hqb => hq (ha b hb hqb)).symm

/-- The search ends between the names before a text and the others. -/
theorem Ordered.lowerBound_spec (h : Ordered cs) (p : Text) :
    let first := Search.lowerBound cs.length fun i => !Text.before (cs.getD i default).name p
    (∀ c ∈ cs.take first, c.name < p) ∧ ∀ c ∈ cs.drop first, p ≤ c.name := by
  have hname {i : Nat} (hi : i < cs.length) :
      (!Text.before (cs.getD i default).name p) = true ↔ p ≤ cs[i].name := by
    rw [List.getD_eq_getElem _ _ hi, Bool.not_eq_true', Text.before_eq_false_iff]
  have hmono (i j : Nat) (hij : i ≤ j) (hj : j < cs.length)
      (hi : (!Text.before (cs.getD i default).name p) = true) : (!Text.before (cs.getD j default).name p) = true := by
    rw [hname (by omega)] at hi
    rw [hname hj]
    rcases Nat.lt_or_eq_of_le hij with hlt | rfl
    · exact List.le_trans hi (List.pairwise_iff_getElem.mp h i j (by omega) hj hlt)
    · exact hi
  obtain ⟨-, hbelow, habove⟩ := Search.between_spec (Nat.zero_le cs.length) hmono
  rw [Search.lowerBound]
  constructor
  · intro c hc
    obtain ⟨i, hi, rfl⟩ := List.mem_iff_getElem.mp hc
    rw [List.length_take] at hi
    rw [List.getElem_take, ← List.not_le, ← hname (by omega), Bool.not_eq_true]
    exact hbelow i (Nat.zero_le i) (by omega)
  · intro c hc
    obtain ⟨i, hi, rfl⟩ := List.mem_iff_getElem.mp hc
    rw [List.length_drop] at hi
    rw [List.getElem_drop, ← hname (by omega)]
    exact habove _ (Nat.le_add_right _ i) (by omega)

/-- Looking up in an ordered list is filtering it. -/
theorem Ordered.lookup_eq {r : Registry} (h : Ordered r.commands) (p : Text) :
    (r.lookup p).starting = r.commands.filter (fun c => p.isPrefixOf c.name) ∧
      (r.lookup p).exact = r.commands.find? fun c => c.name == p := by
  have hstarting : (r.lookup p).starting = r.commands.filter fun c => p.isPrefixOf c.name := by
    obtain ⟨hbelow, habove⟩ := h.lowerBound_spec p
    rw [lookup]
    dsimp only at hbelow habove ⊢
    generalize Search.lowerBound r.commands.length _ = first at hbelow habove ⊢
    conv_rhs => rw [← List.take_append_drop first r.commands, List.filter_append]
    have hnone : ((r.commands.take first).filter fun c => p.isPrefixOf c.name) = [] :=
      List.filter_eq_nil_iff.mpr fun c hc hprefix =>
        List.not_lt.mpr (Text.le_of_prefix (List.isPrefixOf_iff_prefix.mp hprefix)) (hbelow c hc)
    rw [hnone, List.nil_append]
    refine takeWhile_eq_filter ((h.drop).imp_of_mem fun {c d} hc _ hcd hprefix => ?_)
    rw [List.isPrefixOf_iff_prefix] at hprefix ⊢
    exact Text.extends_of_between (habove c hc) hcd hprefix
  refine ⟨hstarting, ?_⟩
  rw [show (r.lookup p).exact = (r.lookup p).starting.find? fun c => c.name == p from rfl, hstarting,
    List.find?_filter]
  congr 1
  funext c
  rw [Bool.decide_and, Bool.decide_coe, Bool.decide_coe, Bool.and_eq_right_iff_imp, beq_iff_eq]
  rintro rfl
  exact List.isPrefixOf_iff_prefix.mpr (List.prefix_refl _)

/-! ## Tables -/

/-- What makes a table from a table. -/
inductive Change where
  | replace (cs : List Command)
  | add (c : Command)
  | clone

def Change.apply (r : Registry) : Change → Registry
  | .replace cs => r.replace cs
  | .add c => r.add c
  | .clone => r.clone

/-- The commands in the order in which they were entered, after a change. One that is added takes the place of
those of its name, as the last. -/
def Change.enter (cs : List Command) : Change → List Command
  | .replace ds => ds
  | .add c => cs.filter (fun d => d.name != c.name) ++ [c]
  | .clone => cs

/-- The table of some commands after some changes. -/
def built (cs : List Command) (changes : List Change) : Registry := changes.foldl Change.apply (ofList cs)

/-- The commands of that table in the order in which they were entered. -/
def entered (cs : List Command) (changes : List Change) : List Command := changes.foldl Change.enter cs

/-- The table is ordered and keeps the entered commands of one name in their order. -/
structure Keeps (r : Registry) (cs : List Command) : Prop where
  ordered : Ordered r.commands
  named_eq : ∀ n, named n r.commands = named n cs

theorem keeps_ofList (cs : List Command) : Keeps (ofList cs) cs := ⟨ordered_ofList cs, fun n => named_ofList n cs⟩

theorem Keeps.apply {r : Registry} (h : Keeps r cs) (change : Change) :
    Keeps (change.apply r) (change.enter cs) := by
  cases change with
  | replace ds => exact keeps_ofList ds
  | clone => exact ⟨ordered_ofList _, fun n => (named_ofList n _).trans (h.named_eq n)⟩
  | add c =>
    refine ⟨ordered_ofList _, fun n => ?_⟩
    rw [Change.apply, Change.enter, named_append]
    by_cases hn : n = c.name
    · rw [hn, named_add, named_others_self, named_cons_self]
      rfl
    · rw [named_add_of_ne hn, h.named_eq, named_others hn, named_cons_of_ne (Ne.symm hn)]
      exact (List.append_nil _).symm

theorem keeps_built (cs : List Command) (changes : List Change) : Keeps (built cs changes) (entered cs changes) := by
  rw [built, entered]
  have h := keeps_ofList cs
  generalize ofList cs = r at h
  induction changes generalizing r cs with
  | nil => exact h
  | cons change changes ih => exact ih _ _ (h.apply change)

/-- However a table came about, its commands are in the order of their names, those of one name as they were
entered. Looking up a text finds all commands whose names start with it, in that order, and the first that has
it as its name. A command that is added is the only one of its name then, and the others stay as they are. -/
theorem lookup_eq_search (cs : List Command) (changes : List Change) :
    Ordered (built cs changes).commands ∧
    (∀ n, named n (built cs changes).commands = named n (entered cs changes)) ∧
    (∀ p, ((built cs changes).lookup p).starting =
        (built cs changes).commands.filter (fun c => p.isPrefixOf c.name) ∧
      ((built cs changes).lookup p).exact = (built cs changes).commands.find? fun c => c.name == p) ∧
    ∀ c, named c.name ((built cs changes).add c).commands = [c] ∧
      (((built cs changes).add c).commands.filter fun d => d.name != c.name) =
        (built cs changes).commands.filter fun d => d.name != c.name := by
  have hkeeps := keeps_built cs changes
  exact ⟨hkeeps.ordered, hkeeps.named_eq, hkeeps.ordered.lookup_eq,
    fun c => ⟨named_add _ c, hkeeps.ordered.others_add c⟩⟩

end Bareword.Registry

import Bareword.Proofs.Report.Distance
import Bareword.Proofs.Text.Order
import Bareword.Proofs.Value.Binding

/-! # Which names are suggested

The suggestions for a name that was not found are the first of the close candidates, the nearest first and
equally near ones by name. Nothing else about the candidates matters, so they may come in any order and any
number of times.

* `gap`: the edit distance of two texts, letter case aside.
* `IsClose`, `Nearer`: which candidates are close, and which of two is suggested first.
* `close_spec`: what sorting the close candidates gives.
* `suggest_nearest`: the suggestions.
-/

namespace Bareword.Report
set_option autoImplicit false

def lowerCodes (t : Text) : List Nat := t.lower.runes.map (·.code)

def gap (target c : Text) : Nat := edits (lowerCodes target) (lowerCodes c)

/-- A candidate that is close enough to the target to be suggested. One that differs from the target in letter
case only is as near as can be; the target itself and the empty text are never suggested. -/
structure IsClose (target c : Text) : Prop where
  ne_nil : c ≠ []
  ne_target : c ≠ target
  gap_le : gap target c ≤ threshold target

/-- The first candidate is nearer to the target, or just as near and before the other by name. -/
def Nearer (target c d : Text) : Prop := gap target c < gap target d ∨ gap target c = gap target d ∧ c < d

variable {target c d : Text} {candidates others : List Text} {a b s : Scored} {ts : List Scored}

theorem editDistance_lower (target c : Text) : editDistance target.lower c.lower = gap target c := distance_eq _ _

theorem Nearer.asymm (h : Nearer target c d) : ¬ Nearer target d c := by
  rintro (hlt | ⟨heq, hlt⟩) <;> rcases h with hlt' | ⟨heq', hlt'⟩
  · omega
  · omega
  · omega
  · exact List.lt_asymm hlt hlt'

/-! ## Sorting -/

/-- The order in which scored candidates are kept. -/
def Scored.Precedes (a b : Scored) : Prop :=
  a.distance < b.distance ∨ a.distance = b.distance ∧ a.name < b.name

theorem Scored.before_iff (a b : Scored) : a.before b = true ↔ a.Precedes b := by
  rw [Scored.before, Scored.Precedes]
  split
  · rename_i hne
    rw [decide_eq_true_iff]
    exact ⟨.inl, fun h => h.resolve_right fun heq => hne heq.1⟩
  · rename_i heq
    rw [not_not] at heq
    rw [Text.before_iff, heq]
    exact ⟨fun h => .inr ⟨rfl, h⟩, fun h => (h.resolve_left (Nat.lt_irrefl _)).2⟩

theorem Scored.Precedes.trans (h : a.Precedes b) (h' : b.Precedes s) : a.Precedes s := by
  rcases h with hlt | ⟨heq, hlt⟩ <;> rcases h' with hlt' | ⟨heq', hlt'⟩
  · exact .inl (hlt.trans hlt')
  · exact .inl (heq' ▸ hlt)
  · exact .inl (heq ▸ hlt')
  · exact .inr ⟨heq.trans heq', List.lt_trans hlt hlt'⟩

/-- Of two candidates with different names one comes first. -/
theorem Scored.precedes_of_not (hname : a.name ≠ b.name) (h : ¬ a.Precedes b) : b.Precedes a := by
  rw [Scored.Precedes, not_or, not_and] at h
  rcases Nat.lt_or_eq_of_le (Nat.le_of_not_lt h.1) with hlt | heq
  · exact .inl hlt
  · refine .inr ⟨heq, ?_⟩
    rcases Std.lt_trichotomy a.name b.name with hlt | heq' | hlt
    · exact absurd hlt (h.2 heq.symm)
    · exact absurd heq' hname
    · exact hlt

theorem Scored.perm_insert (s : Scored) (ts : List Scored) : (s.insert ts).Perm (s :: ts) := by
  induction ts with
  | nil => exact .refl _
  | cons t ts ih =>
    rw [Scored.insert]
    split
    · exact (ih.cons t).trans (.swap s t ts)
    · exact .refl _

theorem Scored.pairwise_insert (hts : ts.Pairwise Scored.Precedes) (hs : ∀ t ∈ ts, s.name ≠ t.name) :
    (s.insert ts).Pairwise Scored.Precedes := by
  induction ts with
  | nil => exact List.pairwise_singleton _ _
  | cons t ts ih =>
    obtain ⟨ht, hts⟩ := List.pairwise_cons.mp hts
    obtain ⟨hne, hs⟩ := List.forall_mem_cons.mp hs
    rw [Scored.insert]
    split
    · rename_i hbefore
      refine List.pairwise_cons.mpr ⟨fun u hu => ?_, ih hts hs⟩
      rcases List.mem_cons.mp ((s.perm_insert ts).mem_iff.mp hu) with rfl | hu
      · exact (Scored.before_iff t u).mp hbefore
      · exact ht u hu
    · rename_i hbefore
      rw [Scored.before_iff] at hbefore
      have hfirst : s.Precedes t := Scored.precedes_of_not (Ne.symm hne) hbefore
      refine List.pairwise_cons.mpr ⟨fun u hu => ?_, List.pairwise_cons.mpr ⟨ht, hts⟩⟩
      rcases List.mem_cons.mp hu with rfl | hu
      · exact hfirst
      · exact hfirst.trans (ht u hu)

theorem Scored.perm_foldr_insert (ts : List Scored) : (ts.foldr Scored.insert []).Perm ts := by
  induction ts with
  | nil => exact .refl _
  | cons t ts ih => exact (t.perm_insert _).trans (ih.cons t)

/-- Inserting candidates of different names one by one sorts them. -/
theorem Scored.pairwise_foldr_insert (hts : (ts.map (·.name)).Nodup) :
    (ts.foldr Scored.insert []).Pairwise Scored.Precedes := by
  induction ts with
  | nil => exact .nil
  | cons t ts ih =>
    rw [List.map_cons, List.nodup_cons] at hts
    refine Scored.pairwise_insert (ih hts.2) fun u hu hname => hts.1 ?_
    rw [hname]
    exact List.mem_map_of_mem ((Scored.perm_foldr_insert ts).mem_iff.mp hu)

/-! ## Close candidates -/

def scored (target c : Text) : Scored := ⟨c, gap target c⟩

/-- The close candidates, each once, in the order in which they come first. -/
def closeNames (target : Text) (candidates : List Text) : List Text :=
  (candidates.filter fun c => !c.isEmpty && c != target).eraseDups.filter fun c => gap target c ≤ threshold target

theorem nodup_closeNames (target : Text) (candidates : List Text) : (closeNames target candidates).Nodup :=
  (nodup_eraseDups _).filter _

theorem mem_closeNames : c ∈ closeNames target candidates ↔ c ∈ candidates ∧ IsClose target c := by
  rw [closeNames, List.mem_filter, List.mem_eraseDups, List.mem_filter, Bool.and_eq_true, bne_iff_ne,
    Bool.not_eq_true', List.isEmpty_eq_false_iff, decide_eq_true_iff]
  exact ⟨fun ⟨⟨hmem, hnil, hne⟩, hle⟩ => ⟨hmem, hnil, hne, hle⟩,
    fun ⟨hmem, hnil, hne, hle⟩ => ⟨⟨hmem, hnil, hne⟩, hle⟩⟩

theorem close_eq (target : Text) (candidates : List Text) :
    close target candidates = ((closeNames target candidates).map (scored target)).foldr Scored.insert [] := by
  have hscored : (fun c => (⟨c, editDistance target.lower c.lower⟩ : Scored)) = scored target :=
    funext fun c => congrArg (Scored.mk c) (editDistance_lower target c)
  rw [close, closeNames, hscored, List.filter_map]
  rfl

/-- Sorting gives the close candidates, the nearest first. -/
theorem close_spec (target : Text) (candidates : List Text) :
    ((close target candidates).map (·.name)).Perm (closeNames target candidates) ∧
      ((close target candidates).map (·.name)).Pairwise (Nearer target) := by
  have hnames : ((closeNames target candidates).map (scored target)).map (·.name) = closeNames target candidates := by
    rw [List.map_map]
    exact List.map_id _
  have hperm := Scored.perm_foldr_insert ((closeNames target candidates).map (scored target))
  have hnodup : (((closeNames target candidates).map (scored target)).map (·.name)).Nodup := by
    rw [hnames]
    exact nodup_closeNames target candidates
  have hsorted := Scored.pairwise_foldr_insert hnodup
  rw [← close_eq] at hperm hsorted
  have hpermNames := hperm.map (·.name)
  rw [hnames] at hpermNames
  refine ⟨hpermNames, List.pairwise_map.mpr (hsorted.imp_of_mem fun {a b} ha hb h => ?_)⟩
  obtain ⟨c, -, rfl⟩ := List.mem_map.mp (hperm.mem_iff.mp ha)
  obtain ⟨d, -, rfl⟩ := List.mem_map.mp (hperm.mem_iff.mp hb)
  exact h

/-- Candidates that are the same but for order and repetitions are sorted to the same. -/
theorem names_close_congr (h : ∀ c, c ∈ others ↔ c ∈ candidates) :
    (close target others).map (·.name) = (close target candidates).map (·.name) := by
  obtain ⟨hperm, hsorted⟩ := close_spec target others
  obtain ⟨hperm', hsorted'⟩ := close_spec target candidates
  have hsame : (closeNames target others).Perm (closeNames target candidates) := by
    refine (List.perm_ext_iff_of_nodup (nodup_closeNames _ _) (nodup_closeNames _ _)).mpr fun c => ?_
    rw [mem_closeNames, mem_closeNames, h]
  refine List.Perm.eq_of_pairwise ?_ hsorted hsorted' (hperm.trans (hsame.trans hperm'.symm))
  exact fun c d _ _ hcd hdc => absurd hdc hcd.asymm

/-- The suggestions for a text are the first three of the close candidates, each of them once, the nearest
first and equally near ones by name. Other candidates that are the same but for order and repetitions
give the same suggestions. -/
theorem suggest_nearest (htarget : target ≠ []) (candidates : List Text) :
    (∃ ranked : List Text, ranked.Nodup ∧ (∀ c, c ∈ ranked ↔ c ∈ candidates ∧ IsClose target c) ∧
      ranked.Pairwise (Nearer target) ∧ suggest target candidates = ranked.take 3) ∧
    ∀ others : List Text, (∀ c, c ∈ others ↔ c ∈ candidates) →
      suggest target others = suggest target candidates := by
  have hsuggest (candidates : List Text) :
      suggest target candidates = ((close target candidates).map (·.name)).take 3 := by
    rw [suggest, if_neg (by simpa using htarget), List.map_take]
    rfl
  obtain ⟨hperm, hsorted⟩ := close_spec target candidates
  refine ⟨⟨_, hperm.nodup_iff.mpr (nodup_closeNames _ _), fun c => ?_, hsorted, hsuggest candidates⟩, ?_⟩
  · rw [hperm.mem_iff, mem_closeNames]
  · intro others hothers
    rw [hsuggest, hsuggest, names_close_congr hothers]

/-- Of the names that are close to `ech`, the nearest come first, and of `each` and `echo` the first by name. -/
theorem suggest_nearest_echo :
    ("ech" : Text) ≠ [] ∧
    suggest "ech" ["echo", "exit", "each", "echo", ""] = ["each", "echo"] ∧
    suggest "ech" ["each", "", "exit", "echo"] = suggest "ech" ["echo", "exit", "each", "echo", ""] :=
  ⟨by decide, by decide +kernel, (suggest_nearest (by decide) _).2 _ fun c => by grind⟩

end Bareword.Report

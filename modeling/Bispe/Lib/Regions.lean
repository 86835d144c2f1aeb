import Mathlib.Data.Set.Insert
import Mathlib.Logic.Relation

/-!
# Regions of a graph

Parts of a directed graph that are left at known places only.  Such parts compose: one
behind another, one after a choice, and two that lead to each other as the body and the
condition of a loop do.

## Main definitions

* `Regions.Region` — a set of nodes that is left at a set of exits.
* `Regions.Confines` — what comes to a node stays inside until it comes to an exit.
* `Regions.Confines.loop` — the rule for loops.
* `Regions.Confines.reach` — what is reached without an exit is inside.
-/

namespace Regions

variable {N : Type*}

/-- Nodes of `inside` that are left at the exits `X` only. -/
structure Region (edge : N → N → Prop) (inside : N → Prop) (S X : Set N) : Prop where
  inside : ∀ i ∈ S, inside i
  leaves : ∀ i ∈ S, ∀ j, edge i j → j ∈ S ∨ j ∈ X

/-- What comes to the node `i` stays inside until it comes to one of the exits. -/
def Confines (edge : N → N → Prop) (inside : N → Prop) (i : N) (X : Set N) : Prop :=
  ∃ S, (i ∈ S ∨ i ∈ X) ∧ Region edge inside S X

variable {edge : N → N → Prop} {inside : N → Prop} {S X Y : Set N} {a b i : N}

/-- More exits. -/
theorem Region.mono (h : Region edge inside S X) (hX : X ⊆ Y) : Region edge inside S Y :=
  ⟨h.inside, fun i hi j hj => (h.leaves i hi j hj).imp id (@hX j)⟩

namespace Confines

/-- At an exit. -/
theorem exit (h : i ∈ X) : Confines edge inside i X :=
  ⟨∅, .inr h, by simp, by simp⟩

theorem mono (h : Confines edge inside i X) (hX : X ⊆ Y) : Confines edge inside i Y := by
  obtain ⟨S, hi, hS⟩ := h
  exact ⟨S, hi.imp id (@hX i), hS.mono hX⟩

/-- What goes on from every exit. -/
theorem bind (h : Confines edge inside i X) (hX : ∀ j ∈ X, Confines edge inside j Y) :
    Confines edge inside i Y := by
  obtain ⟨S, hi, hS⟩ := h
  choose! T hT using hX
  refine ⟨S ∪ {k | ∃ j ∈ X, k ∈ T j}, ?_, fun k hk => ?_, fun k hk l hl => ?_⟩
  · rcases hi with hi | hi
    · exact .inl (.inl hi)
    · exact (hT i hi).1.imp (fun h => .inr ⟨i, hi, h⟩) id
  · rcases hk with hk | ⟨j, hj, hk⟩
    · exact hS.inside k hk
    · exact (hT j hj).2.inside k hk
  · rcases hk with hk | ⟨j, hj, hk⟩
    · rcases hS.leaves k hk l hl with hl | hl
      · exact .inl (.inl hl)
      · exact (hT l hl).1.imp (fun h => .inr ⟨l, hl, h⟩) id
    · exact ((hT j hj).2.leaves k hk l hl).imp (fun h => .inr ⟨j, hj, h⟩) id

/-- A node with its edges begins a region. -/
theorem begin (hi : inside i) (h : ∀ j, edge i j → Confines edge inside j Y) :
    ∃ S, i ∈ S ∧ Region edge inside S Y := by
  choose! T hT using h
  refine ⟨insert i {k | ∃ j, edge i j ∧ k ∈ T j}, Set.mem_insert .., fun k hk => ?_,
    fun k hk l hl => ?_⟩
  · rcases hk with rfl | ⟨j, hj, hk⟩
    · exact hi
    · exact (hT j hj).2.inside k hk
  · rcases hk with rfl | ⟨j, hj, hk⟩
    · exact (hT l hl).1.imp (fun h => .inr ⟨l, hl, h⟩) id
    · exact ((hT j hj).2.leaves k hk l hl).imp (fun h => .inr ⟨j, hj, h⟩) id

/-- From a node along its edges. -/
theorem step (hi : inside i) (h : ∀ j, edge i j → Confines edge inside j Y) :
    Confines edge inside i Y := by
  obtain ⟨S, hmem, hS⟩ := begin hi h
  exact ⟨S, .inl hmem, hS⟩

/-- **Loops.**  The body leads from `a` to `b`, and the condition from `b` back to `a` or
out of the loop. -/
theorem loop (hbody : Confines edge inside a {b})
    (hcond : ∃ S, b ∈ S ∧ Region edge inside S (insert a X)) :
    Confines edge inside a X ∧ Confines edge inside b X := by
  obtain ⟨S, ha, hS⟩ := hbody
  obtain ⟨S', hb, hS'⟩ := hcond
  have ha' : a ∈ S ∪ S' := by
    rcases ha with ha | ha
    · exact .inl ha
    · exact .inr (Set.mem_singleton_iff.mp ha ▸ hb)
  have hunion : Region edge inside (S ∪ S') X := by
    refine ⟨fun i hi => ?_, fun i hi j hj => ?_⟩
    · rcases hi with hi | hi
      · exact hS.inside i hi
      · exact hS'.inside i hi
    · rcases hi with hi | hi
      · rcases hS.leaves i hi j hj with hj | hj
        · exact .inl (.inl hj)
        · exact .inl (.inr (Set.mem_singleton_iff.mp hj ▸ hb))
      · rcases hS'.leaves i hi j hj with hj | rfl | hj
        · exact .inl (.inr hj)
        · exact .inl ha'
        · exact .inr hj
  exact ⟨⟨_, .inl ha', hunion⟩, ⟨_, .inl (.inr hb), hunion⟩⟩

/-- **Without exits**, all that is reached is inside. -/
theorem reach (h : Confines edge inside i ∅) {j : N} (hj : Relation.ReflTransGen edge i j) :
    inside j := by
  obtain ⟨S, hi, hS⟩ := h
  have hmem : j ∈ S := by
    induction hj with
    | refl => exact hi.resolve_right (Set.notMem_empty i)
    | tail _ hedge ih => exact (hS.leaves _ ih _ hedge).resolve_right (Set.notMem_empty _)
  exact hS.inside j hmem

end Confines
end Regions

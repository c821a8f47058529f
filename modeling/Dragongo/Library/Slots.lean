import Mathlib.Data.List.Nodup
import Mathlib.Logic.Function.Basic

/-!
# Slots that are handed out and taken back

A list of slots grows at its end, and whoever gets a slot keeps its index as a ticket.  A slot
that is taken back stays empty, or is dropped if it is the last one.
-/

namespace Slots

variable {α : Type*} {slots : List (Option α)} {ticket : α → Option ℕ} {x : α} {i : ℕ}

/-- Everyone with a ticket is in the slot of the ticket, and nowhere else. -/
def Matches (slots : List (Option α)) (ticket : α → Option ℕ) : Prop :=
  ∀ x i, slots[i]? = some (some x) ↔ ticket x = some i

/-- The slot is emptied, and dropped if it is the last one. -/
def free (slots : List (Option α)) (i : ℕ) : List (Option α) :=
  if i = (slots.set i none).length - 1 then (slots.set i none).dropLast else slots.set i none

theorem matches_nil : Matches ([] : List (Option α)) fun _ => none :=
  fun _ _ => ⟨nofun, nofun⟩

theorem Matches.push [DecidableEq α] (h : Matches slots ticket) (hx : ticket x = none) :
    Matches (slots ++ [some x]) (Function.update ticket x (some slots.length)) := by
  intro y j
  have hx' : ∀ j, slots[j]? ≠ some (some x) := fun j hj =>
    absurd ((h x j).mp hj) (by rw [hx]; exact nofun)
  by_cases hj : j < slots.length
  · rw [List.getElem?_append_left hj]
    by_cases hy : y = x
    · subst hy
      rw [Function.update_self, Option.some.injEq]
      exact iff_of_false (hx' j) (Nat.ne_of_gt hj)
    · rw [Function.update_of_ne hy]
      exact h y j
  · have hold : slots[j]? = none := List.getElem?_eq_none (Nat.not_lt.mp hj)
    rw [List.getElem?_append_right (Nat.not_lt.mp hj)]
    by_cases hy : y = x
    · subst hy
      rw [Function.update_self, Option.some.injEq]
      constructor
      · intro hget
        have hlt := (List.getElem?_eq_some_iff.mp hget).1
        rw [List.length_singleton] at hlt
        omega
      · rintro rfl
        rw [Nat.sub_self]
        rfl
    · rw [Function.update_of_ne hy, ← h y j, hold]
      refine iff_of_false (fun hget => ?_) nofun
      have hmem := List.mem_of_getElem? hget
      rw [List.mem_singleton, Option.some.injEq] at hmem
      exact hy hmem

/-- Dropping an empty slot changes nothing. -/
theorem free_getElem? (slots : List (Option α)) (i j : ℕ) (y : α) :
    (free slots i)[j]? = some (some y) ↔ (slots.set i none)[j]? = some (some y) := by
  unfold free
  split_ifs with hlast
  · rw [List.getElem?_dropLast]
    split_ifs with hj
    · exact Iff.rfl
    · refine iff_of_false nofun fun hget => ?_
      have hlt := (List.getElem?_eq_some_iff.mp hget).1
      have heq : j = i := by omega
      subst heq
      rw [List.getElem?_set_self (by rwa [List.length_set] at hlt)] at hget
      cases hget
  · exact Iff.rfl

theorem Matches.free [DecidableEq α] (h : Matches slots ticket) (hx : ticket x = some i) :
    Matches (Slots.free slots i) (Function.update ticket x none) := by
  intro y j
  have hi : i < slots.length := (List.getElem?_eq_some_iff.mp ((h x i).mpr hx)).1
  rw [free_getElem?]
  by_cases hij : i = j
  · subst hij
    rw [List.getElem?_set_self hi]
    refine iff_of_false (by simp) fun hticket => ?_
    by_cases hy : y = x
    · rw [hy, Function.update_self] at hticket
      cases hticket
    · rw [Function.update_of_ne hy, ← h y i, (h x i).mpr hx] at hticket
      exact hy (Option.some.inj (Option.some.inj hticket)).symm
  · rw [List.getElem?_set_ne hij, h y j]
    by_cases hy : y = x
    · subst hy
      rw [Function.update_self, hx, Option.some.injEq]
      exact iff_of_false hij nofun
    · rw [Function.update_of_ne hy]

/-- Who is in a slot. -/
theorem Matches.mem_iff (h : Matches slots ticket) : some x ∈ slots ↔ ∃ i, ticket x = some i := by
  rw [List.mem_iff_getElem?]
  exact exists_congr fun i => h x i

/-- Nobody is in two slots. -/
theorem Matches.nodup (h : Matches slots ticket) : (slots.filterMap id).Nodup := by
  have hinj : ∀ {i j : ℕ} {x : α}, slots[i]? = some (some x) → slots[j]? = some (some x) →
      i = j := fun hi hj => Option.some.inj (((h _ _).mp hi).symm.trans ((h _ _).mp hj))
  clear h
  induction slots with
  | nil => exact List.nodup_nil
  | cons s slots ih =>
    have htail := ih fun hi hj => Nat.succ.inj (hinj (i := _ + 1) (j := _ + 1) hi hj)
    cases s with
    | none => exact htail
    | some x =>
      refine List.nodup_cons.mpr ⟨fun hmem => ?_, htail⟩
      obtain ⟨s, hs, hx⟩ := List.mem_filterMap.mp hmem
      obtain ⟨j, hj⟩ := List.mem_iff_getElem?.mp hs
      obtain rfl : s = some x := hx
      exact absurd (hinj (i := 0) (j := j + 1) rfl hj) (Nat.succ_ne_zero j).symm

end Slots

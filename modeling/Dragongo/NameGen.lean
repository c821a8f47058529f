import Mathlib.Algebra.Order.Ring.Nat
import Mathlib.Data.List.Nodup
import Mathlib.Logic.Function.Basic

/-!
# Names for types, instructions and blocks

A name is a tag and a version, with a dot between them.  A tag may have dots and digits of its
own, but a version has only digits, so that the last dot is the one that was put in.
-/

namespace Dragongo

/-- The last version that each tag got automatically. -/
abbrev NameGen := String → Option UInt32

namespace NameGen

def new : NameGen := fun _ => none

/-- Tells `namegen` to choose its own version. -/
def chooseVer : UInt32 := 0xffffffff

def name (tag : String) (count : UInt32) : String := tag ++ "." ++ toString count.toNat

/-- The version that is chosen for a tag. -/
def nextVer (g : NameGen) (tag : String) : UInt32 :=
  match g tag with
  | none => 0
  | some n => n + 1

def namegen (g : NameGen) (tag : String) (expl : UInt32) : String × NameGen :=
  let count := if expl ≠ chooseVer then expl else g.nextVer tag
  (name tag count, if expl = chooseVer then Function.update g tag (some count) else g)

structure Call where
  tag : String
  expl : UInt32 := chooseVer

def Call.isAutomatic (c : Call) : Bool := c.expl == chooseVer

/-- The names that calls return, one after the other. -/
def run (g : NameGen) : List Call → List (Call × String)
  | [] => []
  | c :: cs => (c, (g.namegen c.tag c.expl).1) :: run (g.namegen c.tag c.expl).2 cs

/-- The names among them that were numbered automatically. -/
def automatic (g : NameGen) (calls : List Call) : List String :=
  ((g.run calls).filter fun r => r.1.isAutomatic).map Prod.snd

/-! ## A name has one tag and one version -/

section Name

variable {α : Type} {a : α}

/-- The first of some lists that end at the first `a` is found again. -/
theorem append_cons_inj {xs xs' ys ys' : List α} (hxs : a ∉ xs) (hxs' : a ∉ xs')
    (h : xs ++ a :: ys = xs' ++ a :: ys') : xs = xs' ∧ ys = ys' := by
  induction xs generalizing xs' with
  | nil =>
    cases xs' with
    | nil => exact ⟨rfl, (List.cons.inj h).2⟩
    | cons b bs =>
      have hb : a = b := (List.cons.inj h).1
      exact absurd (hb ▸ List.mem_cons_self) hxs'
  | cons b bs ih =>
    rw [List.mem_cons, not_or] at hxs
    cases xs' with
    | nil =>
      have hb : b = a := (List.cons.inj h).1
      exact absurd hb.symm hxs.1
    | cons b' bs' =>
      rw [List.mem_cons, not_or] at hxs'
      obtain ⟨hb, hrest⟩ := List.cons.inj h
      obtain ⟨hbs, hys⟩ := ih hxs.2 hxs'.2 hrest
      exact ⟨by rw [hb, hbs], hys⟩

theorem dot_notMem_digits (n : ℕ) : '.' ∉ Nat.toDigits 10 n := by
  intro h
  have hdigit : '.'.isDigit := Nat.isDigit_of_mem_toDigits (by decide) (by decide) h
  exact absurd hdigit (by decide)

theorem toList_name (tag : String) (count : UInt32) :
    (name tag count).toList = tag.toList ++ '.' :: Nat.toDigits 10 count.toNat := by
  rw [name, String.toList_append, String.toList_append, Nat.toString_eq_repr, Nat.toList_repr,
    List.append_assoc]
  rfl

theorem name_inj {tag tag' : String} {count count' : UInt32}
    (h : name tag count = name tag' count') : tag = tag' ∧ count = count' := by
  have hlist := congrArg (fun s => s.toList.reverse) h
  simp only [toList_name, List.reverse_append, List.reverse_cons, List.append_assoc,
    List.singleton_append] at hlist
  -- read from the end, the digits come before the first dot
  obtain ⟨hdigits, htags⟩ := append_cons_inj (by simpa using dot_notMem_digits count.toNat)
    (by simpa using dot_notMem_digits count'.toNat) hlist
  have hcount := congrArg (fun ds => Nat.ofDigitChars 10 ds 0) (List.reverse_inj.mp hdigits)
  simp only [Nat.ofDigitChars_ten_toDigits] at hcount
  exact ⟨String.toList_inj.mp (List.reverse_inj.mp htags), UInt32.toNat_inj.mp hcount⟩

end Name

/-! ## One call -/

section Namegen

variable {g : NameGen} {c : Call}

theorem namegen_of_automatic (h : c.isAutomatic) : g.namegen c.tag c.expl =
    (name c.tag (g.nextVer c.tag), Function.update g c.tag (some (g.nextVer c.tag))) := by
  have hexpl : c.expl = chooseVer := eq_of_beq h
  simp [namegen, hexpl]

/-- A version of one's own leaves the counters alone. -/
theorem namegen_of_explicit (h : ¬c.isAutomatic) : (g.namegen c.tag c.expl).2 = g := by
  have hexpl : c.expl ≠ chooseVer := fun heq => h (beq_iff_eq.mpr heq)
  simp [namegen, hexpl]

theorem automatic_cons_of_automatic (h : c.isAutomatic) (cs : List Call) :
    g.automatic (c :: cs) = name c.tag (g.nextVer c.tag) ::
      automatic (Function.update g c.tag (some (g.nextVer c.tag))) cs := by
  simp [automatic, run, h, namegen_of_automatic h]

theorem automatic_cons_of_explicit (h : ¬c.isAutomatic) (cs : List Call) :
    g.automatic (c :: cs) = g.automatic cs := by
  simp [automatic, run, h, namegen_of_explicit h]

/-! ## All calls -/

/-- The automatic names are those that there would be without the other calls. -/
theorem automatic_filter (g : NameGen) (calls : List Call) :
    g.automatic calls = g.automatic (calls.filter Call.isAutomatic) := by
  induction calls generalizing g with
  | nil => rfl
  | cons c cs ih =>
    by_cases h : c.isAutomatic
    · rw [List.filter_cons_of_pos h, automatic_cons_of_automatic h, automatic_cons_of_automatic h,
        ih]
    · rw [List.filter_cons_of_neg h, automatic_cons_of_explicit h, ih]

/-- The number of automatic names of a tag so far. -/
def used (g : NameGen) (tag : String) : ℕ :=
  match g tag with
  | none => 0
  | some n => n.toNat + 1

/-- How many names of a tag are still to be numbered. -/
def demand (calls : List Call) (tag : String) : ℕ :=
  (calls.filter fun c => c.isAutomatic && c.tag == tag).length

theorem toNat_nextVer {tag : String} (h : g.used tag < 2 ^ 32) :
    (g.nextVer tag).toNat = g.used tag := by
  unfold nextVer used at *
  cases hg : g tag with
  | none => rfl
  | some n =>
    simp only [hg] at h
    rw [UInt32.toNat_add]
    exact Nat.mod_eq_of_lt h

theorem used_update {tag : String} {n : UInt32} (t : String) :
    used (Function.update g tag (some n)) t = if t = tag then n.toNat + 1 else g.used t := by
  unfold used
  by_cases ht : t = tag
  · subst ht
    simp
  · simp [ht]

/-- While the counters do not wrap, names have new versions, and so differ. -/
theorem automatic_nodup_of (calls : List Call)
    (h : ∀ tag, g.used tag + demand calls tag < 2 ^ 32) : (g.automatic calls).Nodup ∧
      ∀ s ∈ g.automatic calls, ∃ tag count, s = name tag count ∧ g.used tag ≤ count.toNat := by
  induction calls generalizing g with
  | nil => exact ⟨List.nodup_nil, nofun⟩
  | cons c cs ih =>
    by_cases hc : c.isAutomatic
    · have hdemand (tag : String) :
          demand (c :: cs) tag = demand cs tag + if c.tag = tag then 1 else 0 := by
        unfold demand
        rw [List.filter_cons]
        by_cases ht : c.tag = tag <;> simp [hc, ht]
      have hused := h c.tag
      rw [hdemand, if_pos rfl] at hused
      have hnext : (g.nextVer c.tag).toNat = g.used c.tag := toNat_nextVer (by omega)
      obtain ⟨hnodup, hlater⟩ := ih (g := Function.update g c.tag (some (g.nextVer c.tag))) <| by
        intro tag
        have htag := h tag
        rw [hdemand] at htag
        rw [used_update]
        split_ifs with ht
        · subst ht
          rw [if_pos rfl] at htag
          omega
        · rw [if_neg (Ne.symm ht)] at htag
          exact htag
      rw [automatic_cons_of_automatic hc]
      refine ⟨List.nodup_cons.mpr ⟨fun hmem => ?_, hnodup⟩, fun s hs => ?_⟩
      · -- a later name of this tag has a later version
        obtain ⟨tag, count, hname, hle⟩ := hlater _ hmem
        obtain ⟨rfl, rfl⟩ := name_inj hname
        rw [used_update, if_pos rfl] at hle
        exact absurd hle (Nat.not_succ_le_self _)
      · rcases List.mem_cons.mp hs with rfl | hs
        · exact ⟨c.tag, _, rfl, Nat.le_of_eq hnext.symm⟩
        · obtain ⟨tag, count, rfl, hle⟩ := hlater s hs
          refine ⟨tag, count, rfl, ?_⟩
          rw [used_update] at hle
          split_ifs at hle with ht
          · subst ht
            omega
          · exact hle
    · rw [automatic_cons_of_explicit hc]
      refine ih fun tag => ?_
      have hdemand : demand (c :: cs) tag = demand cs tag := by
        unfold demand
        rw [List.filter_cons_of_neg (by simp [hc])]
      rw [← hdemand]
      exact h tag

end Namegen

/-- Automatic names differ, and no other call changes them, while no tag gets `2 ^ 32 - 1` of
them. -/
theorem automatic_nodup (calls : List Call) (h : ∀ tag, demand calls tag < 2 ^ 32 - 1) :
    (new.automatic calls).Nodup ∧
      new.automatic calls = new.automatic (calls.filter Call.isAutomatic) := by
  refine ⟨(automatic_nodup_of calls fun tag => ?_).1, automatic_filter new calls⟩
  have hused : new.used tag = 0 := rfl
  have htag := h tag
  omega

/-- Calls with tags that look like names. -/
def numberedTags : List Call :=
  [⟨"add", chooseVer⟩, ⟨"add.0", chooseVer⟩, ⟨"add", 7⟩, ⟨"add", chooseVer⟩, ⟨"add.0", chooseVer⟩]

theorem numberedTags_nodup : (new.automatic numberedTags).Nodup ∧
    new.automatic numberedTags = new.automatic (numberedTags.filter Call.isAutomatic) :=
  automatic_nodup numberedTags fun _ =>
    Nat.lt_of_le_of_lt (List.length_filter_le _ _) (by decide)

end NameGen

end Dragongo

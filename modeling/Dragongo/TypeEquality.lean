import Dragongo.TypeOperations

/-!
# Structural equality of types

`Btype::equal` as far as it returns: it does not care about the order of its arguments,
it cannot tell equal types apart, and it does not notice what is allocated later.
-/

namespace Dragongo
open LType

theorem andAlso_eq_true {p q : Option Bool} :
    andAlso p q = some true ↔ p = some true ∧ q = some true := by
  match p with
  | some true => simp [andAlso]
  | some false => simp [andAlso]
  | none => simp [andAlso]

theorem andAlso_mono {p p' q q' : Option Bool} (hp : ∀ b, p = some b → p' = some b)
    (hq : ∀ b, q = some b → q' = some b) (b : Bool) (h : andAlso p q = some b) :
    andAlso p' q' = some b := by
  match p, h with
  | some true, h =>
    rw [hp true rfl]
    exact hq b h
  | some false, h =>
    rw [hp false rfl]
    exact h

/-! ## One level of the comparison -/

section Level
variable {E E' : BtypeRef → BtypeRef → Option Bool}

theorem equalKind_array (e e' : Option BtypeRef) (n n' : Option ℕ) :
    equalKind E (.array e n) (.array e' n') =
      if e.isSome ≠ e'.isSome then some false
      else match n, n' with
        | some m, some m' => if m = m' then equalComponent E e e' else some false
        | _, _ => none := rfl

section Comm
variable (hE : ∀ x y, E x y = E y x)
include hE

theorem equalComponent_comm (s t : Option BtypeRef) :
    equalComponent E s t = equalComponent E t s := by
  cases s with
  | none => cases t <;> rfl
  | some x =>
    cases t with
    | none => rfl
    | some y => exact hE x y

theorem equalReceiver_comm (s t : Option BtypeRef) :
    equalReceiver E s t = equalReceiver E t s := by
  cases s with
  | none => cases t <;> rfl
  | some x =>
    cases t with
    | none => rfl
    | some y => exact hE x y

theorem equalFields_comm : ∀ fs gs : List BtypedIdentifier,
    equalFields E fs gs = equalFields E gs fs
  | [], gs => by cases gs <;> rfl
  | _ :: _, [] => rfl
  | f :: fs, g :: gs => by
    simp only [equalFields, hE f.btype g.btype, equalFields_comm fs gs, eq_comm (a := f.name),
      eq_comm (a := f.location)]

theorem equalParams_comm : ∀ xs ys : List BtypeRef, equalParams E xs ys = equalParams E ys xs
  | [], ys => by cases ys <;> rfl
  | _ :: _, [] => rfl
  | x :: xs, y :: ys => by rw [equalParams, equalParams, hE x y, equalParams_comm xs ys]

theorem equalKind_comm (k k' : BtypeKind) : equalKind E k k' = equalKind E k' k := by
  cases k with
  | integer u _ =>
    cases k' with
    | integer u' _ => rw [equalKind, equalKind, Bool.beq_comm]
    | _ => rfl
  | pointer t =>
    cases k' with
    | pointer t' => exact equalComponent_comm hE t t'
    | _ => rfl
  | array e n =>
    cases k' with
    | array e' n' =>
      simp only [equalKind_array, ne_comm (a := e.isSome), equalComponent_comm hE e e']
      split_ifs
      · rfl
      · cases n with
        | none => cases n' <;> rfl
        | some n =>
          cases n' with
          | none => rfl
          | some n' => simp only [eq_comm (a := n)]
    | _ => rfl
  | struct fs =>
    cases k' with
    | struct gs => simp only [equalKind, eq_comm (a := fs.length), equalFields_comm hE fs gs]
    | _ => rfl
  | function r ps rs t c =>
    cases k' with
    | function r' ps' rs' t' c' =>
      simp only [equalKind, equalReceiver_comm hE r r', hE t t', eq_comm (a := ps.length),
        equalParams_comm hE ps ps', Bool.beq_comm (a := c)]
    | _ => rfl
  | _ => cases k' <;> rfl

end Comm

section Congr
variable (hE : ∀ x y z, E x y = some true → E x z = E y z)
include hE

theorem equalComponent_congr {s t : Option BtypeRef} (u : Option BtypeRef)
    (h : equalComponent E s t = some true) : equalComponent E s u = equalComponent E t u := by
  match s, t, u, h with
  | some x, some y, some z, h => exact hE x y z h
  | some _, some _, none, _ => rfl

theorem equalReceiver_congr {s t : Option BtypeRef} (u : Option BtypeRef)
    (h : equalReceiver E s t = some true) : equalReceiver E s u = equalReceiver E t u := by
  match s, t, u, h with
  | some x, some y, some z, h => exact hE x y z h
  | some _, some _, none, _ => rfl
  | none, none, _, _ => rfl

theorem equalFields_congr : ∀ {fs gs : List BtypedIdentifier} (hs : List BtypedIdentifier),
    fs.length = gs.length → equalFields E fs gs = some true →
    equalFields E fs hs = equalFields E gs hs
  | [], [], _, _, _ => rfl
  | _ :: _, _ :: _, [], _, _ => rfl
  | f :: fs, g :: gs, h :: hs, hl, heq => by
    rw [equalFields, andAlso_eq_true] at heq
    obtain ⟨hfirst, hrest⟩ := heq
    split_ifs at hrest with hnames
    · rw [equalFields, equalFields, hE _ _ h.btype hfirst, hnames.1, hnames.2,
        equalFields_congr hs (Nat.succ.inj hl) hrest]
    · cases hrest

theorem equalParams_congr : ∀ {xs ys : List BtypeRef} (zs : List BtypeRef),
    xs.length = ys.length → equalParams E xs ys = some true →
    equalParams E xs zs = equalParams E ys zs
  | [], [], _, _, _ => rfl
  | _ :: _, _ :: _, [], _, _ => rfl
  | x :: xs, y :: ys, z :: zs, hl, heq => by
    rw [equalParams, andAlso_eq_true] at heq
    rw [equalParams, equalParams, hE x y z heq.1,
      equalParams_congr zs (Nat.succ.inj hl) heq.2]

/-- Kinds that compare as equal compare alike with any other. -/
theorem equalKind_congr {k k' : BtypeKind} (k'' : BtypeKind) (h : equalKind E k k' = some true) :
    equalKind E k k'' = equalKind E k' k'' := by
  cases k with
  | aux =>
    cases k' with
    | aux => rfl
    | _ => cases h
  | float _ =>
    cases k' with
    | float _ => cases k'' <;> rfl
    | _ => cases h
  | integer u _ =>
    cases k' with
    | integer u' _ =>
      have hu : u = u' := by simpa [equalKind] using h
      rw [hu]
      cases k'' <;> rfl
    | _ => cases h
  | pointer t =>
    cases k' with
    | pointer t' =>
      cases k'' with
      | pointer t'' => exact equalComponent_congr hE t'' h
      | _ => rfl
    | _ => cases h
  | array e n =>
    cases k' with
    | array e' n' =>
      rw [equalKind_array] at h
      split_ifs at h with hsome
      · cases h
      · match n, n', h with
        | some n, some n', h =>
          dsimp only at h
          split_ifs at h with hn
          · cases k'' with
            | array e'' n'' =>
              rw [equalKind_array, equalKind_array, hn, equalComponent_congr hE e'' h,
                not_not.mp hsome]
            | _ => rfl
          · cases h
    | _ => cases h
  | struct fs =>
    cases k' with
    | struct gs =>
      rw [equalKind] at h
      split_ifs at h with hl
      · cases k'' with
        | struct hs => rw [equalKind, equalKind, hl, equalFields_congr hE hs hl h]
        | _ => rfl
      · cases h
    | _ => cases h
  | function r ps rs t c =>
    cases k' with
    | function r' ps' rs' t' c' =>
      rw [equalKind, andAlso_eq_true, andAlso_eq_true] at h
      obtain ⟨hr, ht, hps⟩ := h
      split_ifs at hps with hl
      · obtain ⟨hps, hc⟩ := andAlso_eq_true.mp hps
        have hc : c = c' := by simpa using hc
        cases k'' with
        | function r'' ps'' rs'' t'' c'' =>
          rw [equalKind, equalKind, equalReceiver_congr hE r'' hr, hE t t' t'' ht, hl, hc,
            equalParams_congr hE ps'' hl hps]
        | _ => rfl
      · cases hps
    | _ => cases h

end Congr

section Mono
variable (hE : ∀ x y b, E x y = some b → E' x y = some b)
include hE

theorem equalFields_mono : ∀ {fs gs : List BtypedIdentifier} {b : Bool},
    equalFields E fs gs = some b → equalFields E' fs gs = some b
  | [], gs, b, h => by cases gs <;> exact h
  | _ :: _, [], _, h => h
  | f :: fs, g :: gs, b, h => by
    rw [equalFields] at h ⊢
    refine andAlso_mono (hE _ _) (fun b hb => ?_) b h
    split_ifs at hb ⊢ with hnames
    · exact equalFields_mono hb
    · exact hb

theorem equalParams_mono : ∀ {xs ys : List BtypeRef} {b : Bool},
    equalParams E xs ys = some b → equalParams E' xs ys = some b
  | [], ys, b, h => by cases ys <;> exact h
  | _ :: _, [], _, h => h
  | x :: xs, y :: ys, b, h => by
    rw [equalParams] at h ⊢
    exact andAlso_mono (hE _ _) (fun b hb => equalParams_mono hb) b h

theorem equalComponent_mono {s t : Option BtypeRef} {b : Bool}
    (h : equalComponent E s t = some b) : equalComponent E' s t = some b := by
  match s, t, h with
  | some x, some y, h => exact hE x y b h
  | some _, none, h => exact h
  | none, some _, h => exact h

theorem equalReceiver_mono {s t : Option BtypeRef} {b : Bool}
    (h : equalReceiver E s t = some b) : equalReceiver E' s t = some b := by
  match s, t, h with
  | some x, some y, h => exact hE x y b h
  | some _, none, h => exact h
  | none, some _, h => exact h
  | none, none, h => exact h

theorem equalKind_mono {k k' : BtypeKind} {b : Bool} (h : equalKind E k k' = some b) :
    equalKind E' k k' = some b := by
  cases k with
  | pointer t =>
    cases k' with
    | pointer t' => exact equalComponent_mono hE h
    | _ => exact h
  | array e n =>
    cases k' with
    | array e' n' =>
      rw [equalKind_array] at h ⊢
      split_ifs at h ⊢ with hsome
      · exact h
      · cases n with
        | none => cases h
        | some n =>
          cases n' with
          | none => cases h
          | some n' =>
            dsimp only at h ⊢
            split_ifs at h ⊢ with hn
            · exact equalComponent_mono hE h
            · exact h
    | _ => exact h
  | struct fs =>
    cases k' with
    | struct gs =>
      rw [equalKind] at h ⊢
      split_ifs at h ⊢ with hl
      · exact equalFields_mono hE h
      · exact h
    | _ => exact h
  | function r ps rs t c =>
    cases k' with
    | function r' ps' rs' t' c' =>
      rw [equalKind] at h ⊢
      refine andAlso_mono (fun b hb => equalReceiver_mono hE hb) (fun b hb => ?_) b h
      refine andAlso_mono (hE t t') (fun b hb => ?_) b hb
      split_ifs at hb ⊢ with hl
      · exact andAlso_mono (fun b hb => equalParams_mono hE hb) (fun b hb => hb) b hb
      · exact hb
    | _ => exact h
  | _ => cases k' <;> exact h

end Mono

/-- Only the comparisons of the components count. -/
theorem equalKind_ext {k k' : BtypeKind}
    (hE : ∀ x ∈ k.components, ∀ y ∈ k'.components, E x y = E' x y) :
    equalKind E k k' = equalKind E' k k' := by
  have hfields : ∀ fs gs : List BtypedIdentifier,
      (∀ f ∈ fs, ∀ g ∈ gs, E f.btype g.btype = E' f.btype g.btype) →
      equalFields E fs gs = equalFields E' fs gs := by
    intro fs
    induction fs with
    | nil => intro gs _; cases gs <;> rfl
    | cons f fs ih =>
      intro gs h
      cases gs with
      | nil => rfl
      | cons g gs =>
        rw [equalFields, equalFields, h f (by simp) g (by simp),
          ih gs fun f' hf g' hg => h f' (by simp [hf]) g' (by simp [hg])]
  have hparams : ∀ xs ys : List BtypeRef, (∀ x ∈ xs, ∀ y ∈ ys, E x y = E' x y) →
      equalParams E xs ys = equalParams E' xs ys := by
    intro xs
    induction xs with
    | nil => intro ys _; cases ys <;> rfl
    | cons x xs ih =>
      intro ys h
      cases ys with
      | nil => rfl
      | cons y ys =>
        rw [equalParams, equalParams, h x (by simp) y (by simp),
          ih ys fun x' hx y' hy => h x' (by simp [hx]) y' (by simp [hy])]
  have hcomponent : ∀ s t : Option BtypeRef, (∀ x ∈ s, ∀ y ∈ t, E x y = E' x y) →
      equalComponent E s t = equalComponent E' s t := by
    intro s t h
    match s, t with
    | some x, some y => exact h x rfl y rfl
    | some _, none => rfl
    | none, some _ => rfl
    | none, none => rfl
  have hreceiver : ∀ s t : Option BtypeRef, (∀ x ∈ s, ∀ y ∈ t, E x y = E' x y) →
      equalReceiver E s t = equalReceiver E' s t := by
    intro s t h
    match s, t with
    | some x, some y => exact h x rfl y rfl
    | some _, none => rfl
    | none, some _ => rfl
    | none, none => rfl
  cases k with
  | pointer t =>
    cases k' with
    | pointer t' =>
      apply hcomponent
      intro x hx y hy
      exact hE x (by simp_all [BtypeKind.components]) y (by simp_all [BtypeKind.components])
    | _ => rfl
  | array e n =>
    cases k' with
    | array e' n' =>
      rw [equalKind_array, equalKind_array, hcomponent e e' fun x hx y hy =>
        hE x (by simp_all [BtypeKind.components]) y (by simp_all [BtypeKind.components])]
    | _ => rfl
  | struct fs =>
    cases k' with
    | struct gs =>
      rw [equalKind, equalKind, hfields fs gs fun f hf g hg =>
        hE _ (List.mem_map_of_mem hf) _ (List.mem_map_of_mem hg)]
    | _ => rfl
  | function r ps rs t c =>
    cases k' with
    | function r' ps' rs' t' c' =>
      rw [equalKind, equalKind,
        hreceiver r r' fun x hx y hy =>
          hE x (by simp_all [BtypeKind.components]) y (by simp_all [BtypeKind.components]),
        hE t (by simp [BtypeKind.components]) t' (by simp [BtypeKind.components]),
        hparams ps ps' fun x hx y hy =>
          hE x (by simp [BtypeKind.components, hx]) y (by simp [BtypeKind.components, hy])]
    | _ => rfl
  | _ => cases k' <;> rfl

theorem equalFields_self : ∀ fs : List BtypedIdentifier,
    (∀ f ∈ fs, E f.btype f.btype = some true) → equalFields E fs fs = some true
  | [], _ => rfl
  | f :: fs, h => by
    rw [equalFields, andAlso_eq_true, if_pos ⟨rfl, rfl⟩]
    exact ⟨h f (by simp), equalFields_self fs fun g hg => h g (by simp [hg])⟩

theorem equalParams_self : ∀ xs : List BtypeRef, (∀ x ∈ xs, E x x = some true) →
    equalParams E xs xs = some true
  | [], _ => rfl
  | x :: xs, h => by
    rw [equalParams, andAlso_eq_true]
    exact ⟨h x (by simp), equalParams_self xs fun y hy => h y (by simp [hy])⟩

theorem equalKind_self {k : BtypeKind} (hk : k.isComplete) (h : ∀ x, E x x = some true) :
    equalKind E k k = some true := by
  cases k with
  | aux => rfl
  | float _ => rfl
  | integer u _ => simp [equalKind]
  | pointer t =>
    obtain ⟨t, rfl⟩ := Option.isSome_iff_exists.mp hk
    exact h t
  | array e n =>
    obtain ⟨he, hn⟩ := (Bool.and_eq_true ..).mp hk
    obtain ⟨e, rfl⟩ := Option.isSome_iff_exists.mp he
    obtain ⟨n, rfl⟩ := Option.isSome_iff_exists.mp hn
    simpa [equalKind, equalComponent] using h e
  | struct fs =>
    rw [equalKind, if_pos rfl]
    exact equalFields_self fs fun f _ => h f.btype
  | function r ps rs t c =>
    have hr : equalReceiver E r r = some true := by
      cases r with
      | none => rfl
      | some r => exact h r
    rw [equalKind, hr, h t, if_pos rfl, equalParams_self ps fun x _ => h x, beq_self_eq_true]
    rfl

end Level

/-! ## The comparison -/

variable {heap : List BtypeObject} {x y z : BtypeRef}

theorem equalWithin_self (heap : List BtypeObject) (fuel : ℕ) (x : BtypeRef) :
    equalWithin heap (fuel + 1) x x = some true := if_pos rfl

/-- What `Btype::equal` compares once it knows that the objects differ. -/
theorem equalWithin_ne {fuel : ℕ} {a b : BtypeObject} (hxy : x ≠ y) (ha : heap[x]? = some a)
    (hb : heap[y]? = some b) :
    equalWithin heap (fuel + 1) x y =
      if a.key = b.key ∧ a.isPlaceholder = b.isPlaceholder then
        equalKind (equalWithin heap fuel) a.kind b.kind
      else some false := by
  rw [equalWithin, if_neg hxy, ha, hb]

theorem equalWithin_comm (heap : List BtypeObject) (fuel : ℕ) : ∀ x y : BtypeRef,
    equalWithin heap fuel x y = equalWithin heap fuel y x := by
  induction fuel with
  | zero => exact fun _ _ => rfl
  | succ fuel ih =>
    intro x y
    rw [equalWithin, equalWithin]
    by_cases hxy : x = y
    · rw [if_pos hxy, if_pos hxy.symm]
    rw [if_neg hxy, if_neg (Ne.symm hxy)]
    cases heap[x]? with
    | none => cases heap[y]? <;> rfl
    | some a =>
      cases heap[y]? with
      | none => rfl
      | some b =>
        simp only [eq_comm (a := a.key), eq_comm (a := a.isPlaceholder),
          equalKind_comm ih a.kind b.kind]

/-- Objects that compare as equal differ and share their keys, flags and kinds, or are one. -/
theorem equalWithin_eq_true {fuel : ℕ} (h : equalWithin heap (fuel + 1) x y = some true) :
    x = y ∨ ∃ a b, heap[x]? = some a ∧ heap[y]? = some b ∧ a.key = b.key ∧
      a.isPlaceholder = b.isPlaceholder ∧
      equalKind (equalWithin heap fuel) a.kind b.kind = some true := by
  rw [equalWithin] at h
  split_ifs at h with hxy
  · exact .inl hxy
  · match ha : heap[x]?, hb : heap[y]? with
    | some a, some b =>
      rw [ha, hb] at h
      dsimp only at h
      split_ifs at h with hkey
      · exact .inr ⟨a, b, rfl, rfl, hkey.1, hkey.2, h⟩
      · cases h
    | some a, none =>
      rw [ha, hb] at h
      cases h
    | none, _ =>
      rw [ha] at h
      cases h

/-- Equal types compare alike with any other, and their comparisons end or fail alike. -/
theorem equalWithin_congr (heap : List BtypeObject) (fuel : ℕ) : ∀ x y z : BtypeRef,
    equalWithin heap fuel x y = some true → equalWithin heap fuel x z = equalWithin heap fuel y z := by
  induction fuel with
  | zero => exact fun _ _ _ h => nomatch h
  | succ fuel ih =>
    intro x y z h
    obtain rfl | ⟨a, b, ha, hb, hkey, hflag, hkind⟩ := equalWithin_eq_true h
    · rfl
    by_cases hyz : y = z
    · rw [← hyz, equalWithin_self, h]
    by_cases hxz : x = z
    · rw [← hxz, equalWithin_self, equalWithin_comm, h]
    rw [equalWithin, equalWithin, if_neg hxz, if_neg hyz, ha, hb]
    cases heap[z]? with
    | none => rfl
    | some c =>
      dsimp only
      rw [hkey, hflag, equalKind_congr ih c.kind hkind]

theorem equalWithin_mono (heap : List BtypeObject) {fuel fuel' : ℕ} (hle : fuel ≤ fuel') :
    ∀ (x y : BtypeRef) (b : Bool), equalWithin heap fuel x y = some b →
      equalWithin heap fuel' x y = some b := by
  induction fuel generalizing fuel' with
  | zero => exact fun _ _ _ h => nomatch h
  | succ fuel ih =>
    obtain ⟨n, rfl⟩ : ∃ n, fuel' = n + 1 := ⟨fuel' - 1, by omega⟩
    intro x y b h
    rw [equalWithin] at h ⊢
    split_ifs at h ⊢ with hxy
    · exact h
    · match ha : heap[x]?, hb : heap[y]? with
      | some o, some o' =>
        rw [ha, hb] at h
        dsimp only at h ⊢
        split_ifs at h ⊢ with hkey
        · exact equalKind_mono (ih (by omega)) h
        · exact h
      | some _, none =>
        rw [ha, hb] at h
        cases h
      | none, _ =>
        rw [ha] at h
        cases h

/-- The components of every object are objects. -/
def Closed (heap : List BtypeObject) : Prop :=
  ∀ (x : BtypeRef) (o : BtypeObject), heap[x]? = some o → ∀ y ∈ o.kind.components, y < heap.length

/-- Heaps that agree on a part that is closed make the same comparisons there. -/
theorem equalWithin_agree {heap' : List BtypeObject} (hclosed : Closed heap)
    (hagree : ∀ x < heap.length, heap'[x]? = heap[x]?) (fuel : ℕ) : ∀ {x y : BtypeRef},
    x < heap.length → y < heap.length →
    equalWithin heap' fuel x y = equalWithin heap fuel x y := by
  induction fuel with
  | zero => exact fun _ _ => rfl
  | succ fuel ih =>
    intro x y hx hy
    by_cases hxy : x = y
    · rw [hxy, equalWithin_self, equalWithin_self]
    have ha : heap[x]? = some heap[x] := List.getElem?_eq_getElem hx
    have hb : heap[y]? = some heap[y] := List.getElem?_eq_getElem hy
    rw [equalWithin_ne hxy ha hb, equalWithin_ne hxy ((hagree x hx).trans ha)
      ((hagree y hy).trans hb)]
    split_ifs
    · apply equalKind_ext
      intro x' hx' y' hy'
      exact ih (hclosed x _ ha x' hx') (hclosed y _ hb y' hy')
    · rfl

end Dragongo

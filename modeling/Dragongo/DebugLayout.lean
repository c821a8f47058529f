import Dragongo.ClonedTypes

/-!
# The layout in debug types

What a debug type says about sizes, offsets and lengths, against the layout that LLVM gives the
type.
-/

namespace Dragongo
open Layout LType

namespace TypeManager

def shapeOf (tm : TypeManager) (t : LType) : Shape := (tm.expand t).shape

/-! ## Right descriptions -/

mutual
/-- The debug type describes the layout of the type at every depth.  All sizes, alignments and
offsets in debug types are in bits.  A placeholder pointer that was set is described like the
pointer type it was set to, a struct that has been given a name is described by its own fields,
and about an auxiliary type nothing is said. -/
def Describes (tm : TypeManager) : DIType → BtypeRef → Prop
  | .basic .., _ => True
  | .pointer pointee size, x => ∃ o, tm.obj x = some o ∧ (o.kind = .aux ∨ ∃ t,
      o.kind = .pointer (some t) ∧ Describes tm pointee t ∧
        (x ∈ tm.placeholders → DIType.pointer pointee size = pointee))
  | .array size _ elem count, x => ∃ o, tm.obj x = some o ∧ (o.kind = .aux ∨ ∃ e n,
      o.kind = .array (some e) (some n) ∧ Describes tm elem e ∧
        size = (tm.shapeOf o.type).bits ∧ count = n)
  | .struct _ size _ members, x => ∃ o, tm.obj x = some o ∧ (o.kind = .aux ∨ ∃ fields,
      o.kind = .struct fields ∧ size = (tm.shapeOf o.type).bits ∧
        (∀ n, tm.revNames x = some n → tm.kindOf n = some (.struct fields)) ∧
        DescribesMembers tm o 0 members fields)
  | .subroutine types, x => ∃ o, tm.obj x = some o ∧ (o.kind = .aux ∨ ∃ r ps rs t c,
      o.kind = .function r ps rs t c ∧ DescribesAll tm types (t :: r.toList ++ ps))
  | .member .., x | .temporary .., x => ∃ o, tm.obj x = some o ∧ o.kind = .aux
def DescribesMembers (tm : TypeManager) (o : BtypeObject) :
    ℕ → List DIType → List BtypedIdentifier → Prop
  | _, [], [] => True
  | i, .member name size align offset type :: members, field :: fields =>
    (name = field.name ∧ Describes tm type field.btype ∧
      (∃ t, tm.typeOf field.btype = some t ∧ size = 8 * (tm.shapeOf t).allocSize ∧
        align = 8 * (tm.shapeOf t).align) ∧
      ∃ offsets off, (tm.expand o.type).elementOffsets = some offsets ∧ offsets[i]? = some off ∧
        offset = 8 * off) ∧ DescribesMembers tm o (i + 1) members fields
  | _, _, _ => False
def DescribesAll (tm : TypeManager) : List DIType → List BtypeRef → Prop
  | [], [] => True
  | d :: ds, x :: xs => Describes tm d x ∧ DescribesAll tm ds xs
  | _, _ => False
end

/-! ## Types whose layout is not described -/

/-- The parts of a type that its debug type is made of. -/
def describedParts (tm : TypeManager) (x : BtypeRef) : List BtypeRef :=
  match tm.kindOf x with
  | some (.pointer toType) => toType.toList
  | some (.array elemType _) => elemType.toList
  | some (.struct fields) => fields.map (·.btype)
  | some (.function receiverType paramTypes _ resultType _) =>
    resultType :: receiverType.toList ++ paramTypes
  | _ => []

/-- No struct with a field, also under its name, no array with an element, and no pointer that
began as a placeholder. -/
def IsFlat (tm : TypeManager) (x : BtypeRef) : Prop :=
  match tm.kindOf x with
  | some (.struct fields) => fields = [] ∧
      ∀ n fields', tm.revNames x = some n → tm.kindOf n = some (.struct fields') → fields' = []
  | some (.array _ nelSize) => nelSize = some 0
  | some (.pointer _) => x ∉ tm.placeholders
  | _ => True

/-- Nothing that the debug type of `x` is made of has a layout. -/
def IsFlatBelow (tm : TypeManager) (x : BtypeRef) : Prop :=
  ∀ y, Relation.ReflTransGen (fun a b => b ∈ tm.describedParts a) x y → tm.IsFlat y

section Flat
variable {tm : TypeManager} {x : BtypeRef}

theorem isFlatBelow_iff : tm.IsFlatBelow x ↔
    tm.IsFlat x ∧ ∀ y ∈ tm.describedParts x, tm.IsFlatBelow y := by
  constructor
  · exact fun h => ⟨h x .refl, fun y hy z hz => h z (hz.head hy)⟩
  · rintro ⟨hx, hparts⟩ z hz
    rcases hz.cases_head with rfl | ⟨y, hy, hz⟩
    · exact hx
    · exact hparts y hy z hz

theorem isFlatBelow_of_parts {k : BtypeKind} (hk : tm.kindOf x = some k) (hparts : k.flavor = .auxT ∨
    k.flavor = .integerT ∨ k.flavor = .floatT) : tm.IsFlatBelow x := by
  rw [isFlatBelow_iff, IsFlat, describedParts, hk]
  cases k with
  | aux | integer | float => exact ⟨trivial, fun y hy => nomatch hy⟩
  | _ => simp [BtypeKind.flavor] at hparts

end Flat

/-! ## Sizes and alignments that are recorded -/

section Recorded
variable {tm : TypeManager} {x : BtypeRef} {d : DIType}

theorem expandWithin_array (bodies : ℕ → Option (List LType)) (fuel : ℕ) (t : LType) (n : ℕ) :
    expandWithin bodies fuel (.array t n) = .array (expandWithin bodies fuel t) n := by
  cases fuel <;> rfl

theorem shapeOf_array (t : LType) (n : ℕ) :
    tm.shapeOf (.array t n) = Shape.array (tm.shapeOf t) n := by
  rw [shapeOf, expand, expandWithin_array]
  rfl

theorem expandWithin_pair (bodies : ℕ → Option (List LType)) (fuel : ℕ) (t u : LType) :
    expandWithin bodies fuel (.struct none [t, u]) =
      .struct none [expandWithin bodies fuel t, expandWithin bodies fuel u] := by
  cases fuel <;> rfl

/-- The length of an array is its size in bits only if it is zero. -/
theorem length_eq_bits_iff (t : LType) (n : ℕ) : n = (tm.shapeOf (.array t n)).bits ↔ n = 0 := by
  rw [shapeOf_array]
  change n = 8 * (n * _) ↔ n = 0
  constructor
  · intro h
    rcases Nat.eq_zero_or_pos n with hn | hn
    · exact hn
    · generalize (tm.shapeOf t).allocSize = s at h
      cases s with
      | zero => simpa using h
      | succ s =>
        rw [Nat.mul_succ] at h
        omega
  · rintro rfl
    simp

/-- The alignment of a member is at most that of its type in bytes, or none at all. -/
theorem typeFieldAlignment_ne {a : ℤ} {t : LType} (ht : tm.typeOf x = some t)
    (h : tm.typeFieldAlignment x = .ok a) : (a % 2 ^ 32).toNat ≠ 8 * (tm.shapeOf t).align := by
  obtain ⟨o, ho, h⟩ := Stop.bind_eq_ok h
  rw [typeOf, Stop.unless_eq_ok ho] at ht
  obtain rfl : o.type = t := Option.some.inj ht
  have hpos := (tm.shapeOf o.type).align_pos
  split_ifs at h
  · obtain rfl := Except.ok.inj h
    change 4294967295 ≠ _
    omega
  · obtain ⟨offsets, hoffsets, h⟩ := Stop.bind_eq_ok h
    obtain ⟨uoff, huoff, h⟩ := Stop.bind_eq_ok h
    obtain ⟨talign, -, h⟩ := Stop.bind_eq_ok h
    obtain rfl := Except.ok.inj h
    have hoff : uoff = (tm.shapeOf o.type).align := by
      have hpair := Stop.unless_eq_ok hoffsets
      rw [expand, expandWithin_pair, elementOffsets] at hpair
      split_ifs at hpair
      obtain rfl := Option.some.inj hpair
      have hbit : expandWithin tm.bodies tm.nextOpaque (.int 1) = .int 1 := by
        cases tm.nextOpaque <;> rfl
      rw [hbit] at huoff
      have halign : alignTo 1 (tm.shapeOf o.type).align = uoff :=
        Option.some.inj (Stop.unless_eq_ok huoff)
      rw [← halign, alignTo, Nat.add_sub_cancel_left, Nat.div_self hpos, Nat.one_mul]
    have hle : min uoff talign ≤ (tm.shapeOf o.type).align := hoff ▸ Nat.min_le_left ..
    generalize min uoff talign = m at hle ⊢
    omega

theorem describes_of_aux (hk : tm.kindOf x = some .aux) : tm.Describes d x := by
  obtain ⟨o, ho, hk⟩ := Option.map_eq_some_iff.mp hk
  cases d with
  | basic => trivial
  | member | temporary => exact ⟨o, ho, hk⟩
  | _ => exact ⟨o, ho, .inl hk⟩

/-- The first member of a struct never has its alignment in bits. -/
theorem not_describesMembers {fuel i : ℕ} {bst : BtypeRef}
    {cache cache' : TypeCache} {field : BtypedIdentifier} {fields : List BtypedIdentifier}
    {members : List DIType} {build : BtypeRef → TypeCache → Except Stop (DIType × TypeCache)}
    (o : BtypeObject)
    (h : tm.buildMembers fuel build bst i (field :: fields) cache = .ok (members, cache')) :
    ¬tm.DescribesMembers o i members (field :: fields) := by
  obtain ⟨⟨type, c₁⟩, -, h⟩ := Stop.bind_eq_ok h
  obtain ⟨size, -, h⟩ := Stop.bind_eq_ok h
  obtain ⟨align, halign, h⟩ := Stop.bind_eq_ok h
  obtain ⟨offset, -, h⟩ := Stop.bind_eq_ok h
  obtain ⟨⟨rest, c₂⟩, -, h⟩ := Stop.bind_eq_ok h
  cases h
  rintro ⟨⟨-, -, ⟨t, ht, -, heq⟩, -⟩, -⟩
  exact typeFieldAlignment_ne ht halign heq

end Recorded

/-! ## Exactly the flat types are described -/

/-- Whatever is cached describes its type just if that is flat. -/
def CacheExact (tm : TypeManager) (cache : TypeCache) : Prop :=
  ∀ x d, cache x = some d → (tm.Describes d x ↔ tm.IsFlatBelow x)

section Exact
variable {tm : TypeManager} {print : LType → String} {x : BtypeRef} {d : DIType}
  {cache cache' : TypeCache} {build : BtypeRef → TypeCache → Except Stop (DIType × TypeCache)}

theorem CacheExact.insert (h : tm.CacheExact cache)
    (hd : tm.Describes d x ↔ tm.IsFlatBelow x) : tm.CacheExact (cache.insert x d) := by
  intro y d' hy
  unfold TypeCache.insert at hy
  split_ifs at hy with hyx
  · obtain rfl := Option.some.inj hy
    exact hyx ▸ hd
  · exact h y d' hy

/-- The recursive calls are exact. -/
def BuildExact (tm : TypeManager)
    (build : BtypeRef → TypeCache → Except Stop (DIType × TypeCache)) : Prop :=
  ∀ x d cache cache', tm.CacheExact cache → build x cache = .ok (d, cache') →
    (tm.Describes d x ↔ tm.IsFlatBelow x) ∧ tm.CacheExact cache'

theorem BuildExact.all (hb : tm.BuildExact build) : ∀ {xs : List BtypeRef} {ds : List DIType}
    {cache : TypeCache}, tm.CacheExact cache → buildAll build xs cache = .ok (ds, cache') →
      (tm.DescribesAll ds xs ↔ ∀ x ∈ xs, tm.IsFlatBelow x) ∧ tm.CacheExact cache'
  | [], ds, cache, hc, h => by
    cases h
    simp [DescribesAll, hc]
  | x :: xs, ds, cache, hc, h => by
    obtain ⟨⟨d, c₁⟩, hd, h⟩ := Stop.bind_eq_ok h
    obtain ⟨⟨rest, c₂⟩, hrest, h⟩ := Stop.bind_eq_ok h
    cases h
    obtain ⟨hx, hc₁⟩ := hb x d cache c₁ hc hd
    obtain ⟨hxs, hc'⟩ := hb.all hc₁ hrest
    refine ⟨?_, hc'⟩
    rw [DescribesAll, hx, hxs, List.forall_mem_cons]

theorem BuildExact.members (hb : tm.BuildExact build) {fuel : ℕ} {bst : BtypeRef} :
    ∀ {fields : List BtypedIdentifier} {i : ℕ} {ms : List DIType} {cache : TypeCache},
      tm.CacheExact cache → tm.buildMembers fuel build bst i fields cache = .ok (ms, cache') →
        tm.CacheExact cache'
  | [], _, ms, cache, hc, h => by
    cases h
    exact hc
  | field :: fields, i, ms, cache, hc, h => by
    obtain ⟨⟨d, c₁⟩, hd, h⟩ := Stop.bind_eq_ok h
    obtain ⟨size, -, h⟩ := Stop.bind_eq_ok h
    obtain ⟨align, -, h⟩ := Stop.bind_eq_ok h
    obtain ⟨offset, -, h⟩ := Stop.bind_eq_ok h
    obtain ⟨⟨rest, c₂⟩, hrest, h⟩ := Stop.bind_eq_ok h
    cases h
    exact hb.members (hb field.btype d cache c₁ hc hd).2 hrest

theorem isFlatBelow_struct {fields : List BtypedIdentifier}
    (hk : tm.kindOf x = some (.struct fields)) : tm.IsFlatBelow x ↔ fields = [] ∧
      ∀ n fields', tm.revNames x = some n → tm.kindOf n = some (.struct fields') → fields' = [] := by
  rw [isFlatBelow_iff, describedParts, IsFlat, hk]
  constructor
  · exact fun h => h.1
  · rintro ⟨rfl, hn⟩
    exact ⟨⟨rfl, hn⟩, fun y hy => nomatch hy⟩

/-- The struct type that was made of the fields of `bst`, for a type that has this copy or is
`bst` itself. -/
theorem describes_struct_iff {fuel : ℕ} {bst : BtypeRef} {fields fields' : List BtypedIdentifier}
    {name : String} {align : ℕ} {members : List DIType} {t : LType}
    (hx : tm.kindOf x = some (.struct fields)) (ht : tm.typeOf x = some t)
    (hbst : tm.kindOf bst = some (.struct fields'))
    (hname : tm.revNames x = some bst ∨
      x = bst ∧ ∀ n, tm.revNames x = some n → tm.kindOf n = some (.struct fields))
    (hmembers : tm.buildMembers fuel build bst 0 fields' cache = .ok (members, cache')) :
    tm.Describes (.struct name (tm.shapeOf t).bits align members) x ↔ tm.IsFlatBelow x := by
  rw [isFlatBelow_struct hx]
  obtain ⟨o, ho, hk⟩ := Option.map_eq_some_iff.mp hx
  have hot : o.type = t := by
    rw [typeOf, ho] at ht
    exact Option.some.inj ht
  have hunfold : tm.Describes (.struct name (tm.shapeOf t).bits align members) x ↔
      (∀ n, tm.revNames x = some n → tm.kindOf n = some (.struct fields)) ∧
        tm.DescribesMembers o 0 members fields := by
    constructor
    · rintro ⟨o', ho', haux | ⟨fs, hfs, -, hnames, hms⟩⟩
      · rw [Option.some.inj (ho.symm.trans ho'), haux] at hk
        cases hk
      · obtain rfl := Option.some.inj (ho.symm.trans ho')
        rw [hk] at hfs
        cases hfs
        exact ⟨hnames, hms⟩
    · rintro ⟨hnames, hms⟩
      exact ⟨o, ho, .inr ⟨fields, hk, by rw [hot], hnames, hms⟩⟩
  rw [hunfold]
  cases fields with
  | nil =>
    constructor
    · rintro ⟨hnames, -⟩
      refine ⟨rfl, fun n fs hn hfs => ?_⟩
      rw [hnames n hn] at hfs
      cases hfs
      rfl
    · rintro ⟨-, hempty⟩
      have hempty' : fields' = [] := by
        rcases hname with hn | ⟨rfl, -⟩
        · exact hempty bst fields' hn hbst
        · rw [hx] at hbst
          cases hbst
          rfl
      rw [hempty'] at hmembers
      cases hmembers
      refine ⟨fun n hn => ?_, trivial⟩
      rcases hname with hbn | ⟨-, hnames⟩
      · rw [hbn] at hn
        rw [← Option.some.inj hn, hbst, hempty']
      · exact hnames n hn
  | cons field fields =>
    refine iff_of_false ?_ fun h => List.cons_ne_nil _ _ h.1
    rintro ⟨hnames, hms⟩
    have hsame : fields' = field :: fields := by
      rcases hname with hn | ⟨rfl, -⟩
      · have hb := hnames bst hn
        rw [hbst] at hb
        cases hb
        rfl
      · rw [hx] at hbst
        cases hbst
        rfl
    rw [hsame] at hmembers
    exact not_describesMembers o hmembers hms

/-- The copy that a struct has been given is described by its own fields. -/
theorem Reachable.copy_fields (hr : tm.Reachable) {bst n : BtypeRef}
    {fields : List BtypedIdentifier} (hx : tm.revNames x = some bst)
    (hbst : tm.kindOf bst = some (.struct fields)) (hn : tm.revNames bst = some n) :
    tm.kindOf n = some (.struct fields) := by
  obtain ⟨k, k', hk, hk', hclone⟩ :=
    hr.copies.kind bst n hn (hr.copies.apart bst (hr.names.named x bst hx))
  rw [hbst] at hk
  obtain rfl := Option.some.inj hk
  rw [hk']
  exact hclone.symm

theorem Reachable.copy_typeOf (hr : tm.Reachable) {bst : BtypeRef} {fields : List BtypedIdentifier}
    (hx : tm.kindOf x = some (.struct fields)) (hbst : tm.revNames x = some bst) :
    tm.typeOf x = tm.typeOf bst := by
  have hflavor : tm.flavorOf x = some .structT := by rw [flavorOf, hx]; rfl
  obtain ⟨t, ⟨ox, hox, -, hxt⟩, ob, hob, -, hbt⟩ := hr.copies.struct x bst hbst hflavor
  rw [typeOf_of_obj hox, typeOf_of_obj hob, hxt, hbt]

theorem BuildExact.struct (hr : tm.Reachable) (hb : tm.BuildExact build) {fuel : ℕ}
    {fields : List BtypedIdentifier} (hc : tm.CacheExact cache)
    (hx : tm.kindOf x = some (.struct fields))
    (h : tm.buildStructDIType print fuel build x cache = .ok (d, cache')) :
    (tm.Describes d x ↔ tm.IsFlatBelow x) ∧ tm.CacheExact cache' := by
  rw [buildStructDIType] at h
  generalize hbst : (tm.revNames x).getD x = bst at h
  obtain ⟨o, ho, h⟩ := Stop.bind_eq_ok h
  have ho := Stop.unless_eq_ok ho
  cases hk : o.kind with
  | struct fields' =>
    rw [hk] at h
    obtain ⟨name, -, h⟩ := Stop.bind_eq_ok h
    obtain ⟨⟨members, c₁⟩, hmembers, h⟩ := Stop.bind_eq_ok h
    obtain ⟨size, hsize, h⟩ := Stop.bind_eq_ok h
    obtain ⟨align, -, h⟩ := Stop.bind_eq_ok h
    cases h
    have hsize' : size = (tm.shapeOf o.type).bits := by
      have hbits := Stop.unless_eq_ok hsize
      rw [sizeInBits] at hbits
      split_ifs at hbits
      exact (Option.some.inj hbits).symm
    have hkb : tm.kindOf bst = some (.struct fields') := by rw [kindOf, ho, ← hk]; rfl
    have htb := typeOf_of_obj ho
    -- what is recorded for the copy is right for the copy and for the original
    have hexact : (tm.Describes (.struct name size align members) x ↔ tm.IsFlatBelow x) ∧
        (tm.Describes (.struct name size align members) bst ↔ tm.IsFlatBelow bst) := by
      rw [hsize']
      cases hrev : tm.revNames x with
      | none =>
        rw [hrev, Option.getD_none] at hbst
        subst hbst
        have hself : tm.Describes (.struct name (tm.shapeOf o.type).bits align members) x ↔
            tm.IsFlatBelow x := describes_struct_iff hkb htb hkb
          (.inr ⟨rfl, fun n hn => absurd (hrev.symm.trans hn) (Option.some_ne_none n).symm⟩) hmembers
        exact ⟨hself, hself⟩
      | some b =>
        rw [hrev, Option.getD_some] at hbst
        subst hbst
        exact ⟨describes_struct_iff hx ((hr.copy_typeOf hx hrev).trans htb) hkb (.inl hrev) hmembers,
          describes_struct_iff hkb htb hkb
            (.inr ⟨rfl, fun n hn => hr.copy_fields hrev hkb hn⟩) hmembers⟩
    refine ⟨hexact.1, ?_⟩
    cases fields' with
    | nil =>
      cases hmembers
      have hinsert : (cache.insert bst (.temporary bst name)).insert bst
          (.struct name size align []) = cache.insert bst (.struct name size align []) := by
        funext y
        unfold TypeCache.insert
        split_ifs <;> rfl
      rw [hinsert]
      exact hc.insert hexact.2
    | cons field fields' =>
      apply CacheExact.insert _ hexact.2
      apply hb.members (hc.insert _) hmembers
      -- while the members are made, a temporary stands for a struct that is not flat
      apply iff_of_false
      · rintro ⟨o', ho', haux⟩
        rw [← Option.some.inj (ho.symm.trans ho'), hk] at haux
        cases haux
      · rw [isFlatBelow_struct hkb]
        exact fun h => List.cons_ne_nil _ _ h.1
  | _ =>
    rw [hk] at h
    cases h

theorem buildKind_exact (hr : tm.Reachable) (hb : tm.BuildExact build) {fuel : ℕ} {o : BtypeObject}
    (hc : tm.CacheExact cache) (ho : tm.obj x = some o)
    (h : tm.buildKind print fuel build x o cache = .ok (d, cache')) :
    (tm.Describes d x ↔ tm.IsFlatBelow x) ∧ tm.CacheExact cache' := by
  have hx : tm.kindOf x = some o.kind := by rw [kindOf, ho]; rfl
  unfold buildKind at h
  cases hk : o.kind with
  | aux =>
    rw [hk] at hx h
    have hexact : ∀ d, tm.Describes d x ↔ tm.IsFlatBelow x := fun d =>
      iff_of_true (describes_of_aux hx) (isFlatBelow_of_parts hx (.inl rfl))
    refine ⟨hexact d, ?_⟩
    cases hrev : tm.revNames x with
    | some n =>
      rw [hrev] at h
      dsimp only at h
      split_ifs at h
      · cases h
        exact hc
      · exact (hb n d cache cache' hc h).2
    | none =>
      rw [hrev] at h
      dsimp only at h
      split_ifs at h
      · cases h
        exact hc
      · rw [buildCircularPointerDIType, hrev] at h
        obtain ⟨name, -, h⟩ := Stop.bind_eq_ok h
        obtain ⟨toType, -, h⟩ := Stop.bind_eq_ok h
        obtain ⟨⟨toDI, c₁⟩, hto, h⟩ := Stop.bind_eq_ok h
        cases h
        exact (hb _ _ _ _ (hc.insert (hexact _)) hto).2.insert (hexact _)
  | integer isUnsigned bits =>
    rw [hk] at hx h
    obtain ⟨name, -, h⟩ := Stop.bind_eq_ok h
    cases h
    exact ⟨iff_of_true trivial (isFlatBelow_of_parts hx (.inr (.inl rfl))), hc⟩
  | float bits =>
    rw [hk] at hx h
    obtain ⟨name, -, h⟩ := Stop.bind_eq_ok h
    cases h
    exact ⟨iff_of_true trivial (isFlatBelow_of_parts hx (.inr (.inr rfl))), hc⟩
  | pointer toType =>
    rw [hk] at hx h
    obtain ⟨t, ht, h⟩ := Stop.bind_eq_ok h
    obtain ⟨⟨toDI, c₁⟩, hto, h⟩ := Stop.bind_eq_ok h
    cases h
    obtain ⟨hexact, hc'⟩ := hb t toDI cache cache' hc hto
    refine ⟨?_, hc'⟩
    rw [isFlatBelow_iff, describedParts, IsFlat, hx, Stop.unless_eq_ok ht]
    constructor
    · rintro ⟨o', ho', haux | ⟨t', ht', hdesc, hsame⟩⟩
      · rw [← Option.some.inj (ho.symm.trans ho'), hk] at haux
        cases haux
      · rw [← Option.some.inj (ho.symm.trans ho'), hk, Stop.unless_eq_ok ht] at ht'
        cases ht'
        -- no node is its own pointee
        refine ⟨fun hp => ?_, fun y hy => ?_⟩
        · have hsize := congrArg sizeOf (hsame hp)
          simp only [DIType.pointer.sizeOf_spec] at hsize
          omega
        · obtain rfl := List.mem_singleton.mp hy
          exact hexact.mp hdesc
    · rintro ⟨hp, hparts⟩
      exact ⟨o, ho, .inr ⟨t, by rw [hk, Stop.unless_eq_ok ht],
        hexact.mpr (hparts t (List.mem_singleton_self t)), fun h => (hp h).elim⟩⟩
  | array elemType nelSize =>
    rw [hk] at hx h
    obtain ⟨e, he, h⟩ := Stop.bind_eq_ok h
    obtain ⟨⟨elemDI, c₁⟩, helem, h⟩ := Stop.bind_eq_ok h
    obtain ⟨n, hn, h⟩ := Stop.bind_eq_ok h
    obtain ⟨elem, -, h⟩ := Stop.bind_eq_ok h
    obtain ⟨align, -, h⟩ := Stop.bind_eq_ok h
    cases h
    obtain ⟨hexact, hc'⟩ := hb e elemDI cache cache' hc helem
    refine ⟨?_, hc'⟩
    rw [Stop.unless_eq_ok he, Stop.unless_eq_ok hn] at hx hk
    obtain ⟨t, ht⟩ := hr.arrayTyped x o ho _ _ hk
    rw [isFlatBelow_iff, describedParts, IsFlat, hx]
    constructor
    · rintro ⟨o', ho', haux | ⟨e', n', hk', hdesc, hsize, -⟩⟩
      · rw [← Option.some.inj (ho.symm.trans ho'), hk] at haux
        cases haux
      · obtain rfl := Option.some.inj (ho.symm.trans ho')
        rw [hk] at hk'
        cases hk'
        rw [ht, length_eq_bits_iff] at hsize
        refine ⟨congrArg some hsize, fun y hy => ?_⟩
        obtain rfl := List.mem_singleton.mp hy
        exact hexact.mp hdesc
    · rintro ⟨hzero, hparts⟩
      refine ⟨o, ho, .inr ⟨e, n, hk, hexact.mpr (hparts e (List.mem_singleton_self e)), ?_, rfl⟩⟩
      rw [ht, length_eq_bits_iff]
      exact Option.some.inj hzero
  | struct fields =>
    rw [hk] at hx h
    exact hb.struct hr hc hx h
  | function receiverType paramTypes resultTypes resultType followsCabi =>
    rw [hk] at hx h
    obtain ⟨⟨types, c₁⟩, htypes, h⟩ := Stop.bind_eq_ok h
    cases h
    obtain ⟨hexact, hc'⟩ := hb.all hc htypes
    refine ⟨?_, hc'⟩
    rw [isFlatBelow_iff, describedParts, IsFlat, hx]
    constructor
    · rintro ⟨o', ho', haux | ⟨r, ps, rs, t, c, hk', hdesc⟩⟩
      · rw [← Option.some.inj (ho.symm.trans ho'), hk] at haux
        cases haux
      · rw [← Option.some.inj (ho.symm.trans ho'), hk] at hk'
        cases hk'
        exact ⟨trivial, hexact.mp hdesc⟩
    · rintro ⟨-, hparts⟩
      exact ⟨o, ho, .inr ⟨_, _, _, _, _, hk, hexact.mpr hparts⟩⟩

theorem buildDIType_exact (hr : tm.Reachable) (print : LType → String) (fuel : ℕ) :
    tm.BuildExact (tm.buildDIType print fuel) := by
  induction fuel with
  | zero => exact fun _ _ _ _ _ h => nomatch h
  | succ fuel ih =>
    intro x d cache cache' hc h
    rw [buildDIType] at h
    cases hcache : cache x with
    | some d' =>
      rw [hcache] at h
      cases h
      exact ⟨hc x d hcache, hc⟩
    | none =>
      rw [hcache] at h
      obtain ⟨o, ho, h⟩ := Stop.bind_eq_ok h
      exact buildKind_exact hr ih hc (Stop.unless_eq_ok ho) h

/-- The cache of a helper that has been used for some types. -/
inductive Filled (tm : TypeManager) (print : LType → String) : TypeCache → Prop
  | empty : Filled tm print fun _ => none
  | call {fuel : ℕ} {x : BtypeRef} {d : DIType} {cache cache' : TypeCache} :
      Filled tm print cache → tm.buildDIType print fuel x cache = .ok (d, cache') →
      Filled tm print cache'

theorem Filled.exact (hr : tm.Reachable) (h : tm.Filled print cache) : tm.CacheExact cache := by
  induction h with
  | empty => exact fun _ _ h => nomatch h
  | call _ hcall ih => exact (buildDIType_exact hr print _ _ _ _ _ ih hcall).2

/-- A debug type describes the layout just if there is none: it is made of no struct with a field,
no array with an element and no pointer that began as a placeholder. -/
theorem describes_iff (hr : tm.Reachable) (hcache : tm.Filled print cache) {fuel : ℕ}
    (h : tm.buildDIType print fuel x cache = .ok (d, cache')) :
    tm.Describes d x ↔ tm.IsFlatBelow x :=
  (buildDIType_exact hr print fuel x d cache cache' (hcache.exact hr) h).1

/-- The type of strings, which is a pointer to bytes. -/
theorem stringType_describes_iff :
    (newManager id).Describes (.pointer (.basic "uint8" (some 8) .unsigned) 64) 2 ↔
      (newManager id).IsFlatBelow 2 :=
  have hbuild : (newManager id).buildDIType (fun _ => "") 3 2 (fun _ => none) =
      .ok (.pointer (.basic "uint8" (some 8) .unsigned) 64, fun _ => none) := rfl
  describes_iff (newManager_reachable id) .empty hbuild

end Exact

/-- No placeholder is left, and no type is made of itself. -/
inductive Finished (tm : TypeManager) : BtypeRef → Prop
  | mk {x : BtypeRef} {o : BtypeObject} : tm.obj x = some o → ¬o.isPlaceholder →
      (∀ y ∈ o.kind.components, Finished tm y) → Finished tm x

/-- An array of two bytes is recorded to have a size of two bits. -/
theorem not_describes : ¬∀ (tm : TypeManager) (print : LType → String) (x : BtypeRef) (fuel : ℕ)
    (d : DIType) (cache' : TypeCache), tm.Reachable → tm.Finished x →
    tm.buildDIType print fuel x (fun _ => none) = .ok (d, cache') → tm.Describes d x := by
  intro hall
  let pair := (newManager id).make 0
    ⟨"", .array (.int 8) 2, false, .array (some 1) (some 2)⟩ [1] .anonTypes
  have hpair : pair.Reachable := ⟨id, _, [.arrayType 1 (some 2)], new_eq id, rfl⟩
  have hbyte : pair.Finished 1 := .mk rfl Bool.false_ne_true fun y hy => nomatch hy
  have hfinished : pair.Finished 3 := by
    refine .mk rfl Bool.false_ne_true fun y hy => ?_
    obtain rfl := List.mem_singleton.mp hy
    exact hbyte
  obtain ⟨o, ho, haux | ⟨e, n, -, -, hsize, -⟩⟩ := hall pair (fun _ => "") 3 3
    (.array 2 1 (.basic "uint8" (some 8) .unsigned) 2) _ hpair hfinished rfl
  · cases ho
    cases haux
  · cases ho
    exact absurd ((length_eq_bits_iff _ 2).mp hsize) (by decide)

end TypeManager
end Dragongo

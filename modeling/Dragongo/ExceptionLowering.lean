import Dragongo.CaseLowering

/-!
# Defer and exception statements do what they mean

The landing pad of a defer statement leads to the deferred calls, and from these back to where
the statement begins.  An exception statement has a landing pad for its body and another one
for the code that is run for an exception, and all of it goes on in the finally part.
-/

namespace Dragongo

open Simulation

namespace GenBlocks

section Statements

variable {kept : Walk} {fn : Instructions} {σ : Type}

/-! ## Landing pads -/

section Lands

variable {t : Target} {M : Meaning fn σ} {pad : BlockRef} {pads pads' : List BlockRef}
  {fin fin' : Option BlockRef} {s s' : GenBlocks} {cur cur' : Option BlockRef}
  {p : Meaning.Point σ} {o : Outcome σ} {f finish : σ → Outcome σ} {b target : BlockRef}
  {bi : BlockInst}

theorem Completes.of_push (ht : Completes (s.push b bi) t) : Completes s t :=
  ⟨(s.push_extends b bi).trans ht.blocks, ht.labels⟩

theorem Completes.of_landAt (ht : Completes (s.landAt pad target) t) : Completes s t :=
  ht.of_push.of_push

/-- Only the block where control is at the end matters. -/
theorem Lands.congr (h : Lands t M pads fin s cur p o)
    (hkept : ∀ b, cur = some b → s'.blocks[b]? = s.blocks[b]?) :
    Lands t M pads fin s' cur p o := by
  cases o with
  | done st =>
    obtain ⟨b, is, hcur, his, hreach⟩ := h
    exact ⟨b, is, hcur, (hkept b hcur).trans his, hreach⟩
  | leave st => exact h
  | goto l st => exact h
  | retry d st => exact h
  | ret st => exact h
  | threw st => exact h

/-- An exception comes to the innermost landing pad. -/
theorem Lands.handle (h : Lands t M (pad :: pads) fin s cur p o)
    (hpad : ∀ st, Lands t M pads' fin s cur (pad, 0, st) (f st)) :
    Lands t M pads' fin s cur p (o.handle f) := by
  cases o with
  | done st => exact h
  | leave st => exact h
  | goto l st => exact h
  | retry d st => exact h
  | ret st => exact h
  | threw st => exact (hpad st).of_reaches (Advances.reaches h)

/-- Whatever happened in an exception statement, its finally part is next. -/
theorem Lands.caught (h : Lands t M [pad] fin s (some target) p o)
    (hempty : s.blocks[target]? = some []) (hfin : ∀ b, fin = some b → b = target)
    (hpad : ∀ st, Reaches (M.blockStep t.blocks) (pad, 0, st) (.inl (target, 0, st)))
    (hfinish : ∀ st, Lands t M pads' fin' s' cur' (target, 0, st) (finish st)) :
    Lands t M pads' fin' s' cur' p (Meaning.caught id finish o) := by
  cases o with
  | done st =>
    obtain ⟨b, is, hcur, his, hreach⟩ := h
    cases hcur
    cases hempty.symm.trans his
    exact (hfinish st).of_reaches hreach
  | leave st =>
    obtain ⟨b, hb, hadv⟩ := h
    rw [hfin b hb] at hadv
    exact (hfinish st).of_reaches hadv.reaches
  | goto l st => exact h
  | retry d st => exact h
  | ret st => exact h
  | threw st =>
    have hthrew : Advances (M.blockStep t.blocks) p (.inl (pad, 0, st)) := h
    exact (hfinish st).of_reaches (hthrew.reaches.trans (hpad st))

/-- From a landing pad control goes on to another block. -/
theorem reaches_landAt (ht : Completes (s.landAt pad target) t) (hb : s.blocks[pad]? = some [])
    (M : Meaning fn σ) (st : σ) :
    Reaches (M.blockStep t.blocks) (pad, 0, st) (.inl (target, 0, st)) := by
  have hpad : (s.push pad .landingPad).blocks[pad]? = some ([] ++ [.landingPad]) := push_self s hb
  have hland := ht.of_push.step M st hpad
  have hbr := ht.step M st (push_self (s.push pad .landingPad) hpad)
  exact .next hland (.next hbr (.refl _))

end Lands

section Frame

variable {ls : List LabelId} {s s' : GenBlocks} {cur cur' : Option BlockRef} {b pad : BlockRef}

theorem Framed.landAt (h : Framed ls s cur s' cur') (hle : s.blocks.length ≤ pad)
    (hp : s'.Plain pad) (target : BlockRef) : Framed ls s cur (s'.landAt pad target) cur' :=
  (h.pushAt hle hp .landingPad).pushAt hle hp (.br target)

theorem Reserved.landAt (h : s.Reserved cur b) (hne : pad ≠ b) (target : BlockRef) :
    (s.landAt pad target).Reserved cur b := (h.push hne .landingPad).push hne (.br target)

theorem landAt_ne (s : GenBlocks) (hne : b ≠ pad) (target : BlockRef) :
    (s.landAt pad target).blocks[b]? = s.blocks[b]? := by
  rw [GenBlocks.landAt, push_ne _ hne, push_ne s hne]

theorem mkLLVMBlocks_reserved (hlab : s.Labelled) (hlive : s.Live cur) {n k : ℕ} (hk : k < n) :
    (s.mkLLVMBlocks n).Reserved cur (s.blocks.length + k) where
  empty := mkLLVMBlocks_new s hk
  plain := plain_mkLLVMBlocks hlab n k
  away := fun hcur => Nat.not_lt_of_le (Nat.le_add_right _ _) (hlive.lt hcur)

theorem Live.mkLLVMBlocks (hlive : s.Live cur) (n : ℕ) : (s.mkLLVMBlocks n).Live cur :=
  hlive.congr fun _ hb => mkLLVMBlocks_old s n (hlive.lt hb)

end Frame

/-! ## Deferred calls -/

/-- The blocks of a defer statement, which control comes to the first one of. -/
def openDefer (s : GenBlocks) (cur : Option BlockRef) : GenBlocks :=
  ((s.mkLLVMBlocks 3).leave cur s.blocks.length).setPads
    ((s.blocks.length + 1) :: s.padBlockStack)

/-- The landing pad, after the first part `s₁` of the walk. -/
def landDefer (s s₁ : GenBlocks) : GenBlocks :=
  (s₁.setPads s.padBlockStack).landAt (s.blocks.length + 1) (s.blocks.length + 2)

section Defer

variable {s s₁ s₂ : GenBlocks} {cur contbb : Option BlockRef}

theorem rest_openDefer (s : GenBlocks) (cur : Option BlockRef) : (s.openDefer cur).rest =
    { s.rest with pads := (s.blocks.length + 1) :: s.padBlockStack } := by
  rw [openDefer, rest_setPads, rest_leave, rest_mkLLVMBlocks]

theorem openDefer_reserved (hlab : s.Labelled) (hlive : s.Live cur) {k : ℕ} (hk : k < 3) :
    (s.openDefer cur).Reserved none (s.blocks.length + k) := by
  unfold openDefer
  rw [leave_eq_branchTo (hlive.mkLLVMBlocks 3)]
  have hres := (mkLLVMBlocks_reserved hlab hlive hk).branchTo s.blocks.length
  exact ⟨hres.empty, hres.plain, hres.away⟩

theorem openDefer_framed (hlab : s.Labelled) (hlive : s.Live cur) :
    Framed [] s cur (s.openDefer cur) (some s.blocks.length) := by
  have hblocks : Framed [] s cur (s.mkLLVMBlocks 3) cur := (Framed.refl hlab).mkLLVMBlocks 3
  have hleave := hblocks.branchTo (hlive.mkLLVMBlocks 3) s.blocks.length
  rw [← leave_eq_branchTo (hlive.mkLLVMBlocks 3)] at hleave
  have hopen : Framed [] s cur (s.openDefer cur) none := hleave.congr rfl rfl
  exact hopen.moveTo (Nat.le_refl _)
    (openDefer_reserved hlab hlive (k := 0) (Nat.succ_pos 2)).plain

theorem within_weaken {ls ls' : List LabelId} {lo hi lo' hi' : ℕ} {x : EntryPoint}
    (h : x.within ls lo hi) (hls : ls ⊆ ls') (hlo : lo' ≤ lo) (hhi : hi ≤ hi') :
    x.within ls' lo' hi' := by
  cases x with
  | start => rfl
  | label l => exact EntryPoint.within_label.mpr (hls (EntryPoint.within_label.mp h))
  | retry k =>
    rw [EntryPoint.within_retry] at h ⊢
    omega

theorem within_succ {ls : List LabelId} {d hi : ℕ} {x : EntryPoint} (h : x.within ls d hi)
    (hx : x ≠ .retry d) : x.within ls (d + 1) hi := by
  cases x with
  | start => rfl
  | label l => exact h
  | retry k =>
    rw [EntryPoint.within_retry] at h ⊢
    have hne : k ≠ d := fun heq => hx (congrArg EntryPoint.retry heq)
    omega

/-- What there is after the first part: where control goes on, and the blocks for an exception. -/
structure FirstPart (lu : List LabelId) (s : GenBlocks) (cur : Option BlockRef) (s₁ : GenBlocks)
    (contbb : Option BlockRef) : Prop where
  framed : Framed lu s cur (s.landDefer s₁) contbb
  pad : s₁.Reserved contbb (s.blocks.length + 1)
  catch_ : (s.landDefer s₁).Reserved contbb (s.blocks.length + 2)
  kept : ∀ b, contbb = some b → (s.landDefer s₁).blocks[b]? = s₁.blocks[b]?

theorem firstPart {lu : List LabelId} (hlab : s.Labelled) (hlive : s.Live cur)
    (h : Framed lu (s.openDefer cur) (some s.blocks.length) s₁ contbb) :
    FirstPart lu s cur s₁ contbb := by
  have hother : ∀ k < 3, 0 ≠ k → s₁.Reserved contbb (s.blocks.length + k) := fun k hk h0 =>
    h.reserved ((openDefer_reserved hlab hlive hk).moveTo (add_ne_add s.blocks.length (j := 0) h0))
  have hpad := hother 1 (by decide) (by decide)
  have hcatch := hother 2 (by decide) (by decide)
  have hpop : Framed lu s cur (s₁.setPads s.padBlockStack) contbb :=
    ((openDefer_framed hlab hlive).trans h).congr rfl rfl
  have hcatch₁ : (s₁.setPads s.padBlockStack).Reserved contbb (s.blocks.length + 2) :=
    ⟨hcatch.empty, hcatch.plain, hcatch.away⟩
  refine ⟨hpop.landAt (Nat.le_add_right _ 1) hpad.plain _, hpad,
    hcatch₁.landAt (add_ne_add s.blocks.length (by decide)) _, fun b hb => ?_⟩
  refine landAt_ne (s₁.setPads s.padBlockStack) ?_ _
  rintro rfl
  exact hpad.away hb

/-- Both parts of a defer statement. -/
theorem defer_translated {lu ld : List LabelId} {d mid hi : ℕ}
    {FU FD : ∀ {σ : Type}, Meaning fn σ → EntryPoint → σ → Outcome σ} (hlab : s.Labelled)
    (hlive : s.Live cur)
    (hU : Translated fn lu (d + 1) mid FU (s.openDefer cur) (some s.blocks.length) s₁ contbb)
    (hlive₁ : s₁.Live contbb) (hwaiting : Waiting ld (s.landDefer s₁) contbb)
    (hfin : s₁.finallyBlock = s.finallyBlock)
    (hD : Translated fn ld mid hi FD (s.landDefer s₁) (some (s.blocks.length + 2)) s₂
      (some (s.blocks.length + 2)))
    (hlo : d + 1 ≤ mid) (hhi : mid ≤ hi) :
    Translated fn (lu ++ ld) d hi (fun M x st =>
        if x = .retry d ∨ x.within lu (d + 1) mid then
          (FU M (if x = .retry d then .start else x) st).handle fun st =>
            Meaning.again d (FD M .start st)
        else Meaning.again d (FD M x st)) s cur
        (s₂.push (s.blocks.length + 2) (.br s.blocks.length)) contbb ∧
      (s₂.push (s.blocks.length + 2) (.br s.blocks.length)).Live contbb := by
  have hfirst := firstPart hlab hlive hU.framed
  have hlive₂ := hlive₁.congr hfirst.kept
  -- the deferred calls are walked aside, and the statement ends where the first part does
  have hframed := (hfirst.framed.resume hD.framed (Nat.le_add_right _ _) hfirst.catch_.plain
    fun b hb => hlive₂.lt hb).pushAt (Nat.le_add_right _ _)
    (hD.framed.plain hfirst.catch_.lt hfirst.catch_.plain) (.br s.blocks.length)
  have hne : ∀ b, contbb = some b → s.blocks.length + 2 ≠ b := fun b hb heq =>
    hfirst.catch_.away (heq ▸ hb)
  have hkept : ∀ b, contbb = some b →
      (s₂.push (s.blocks.length + 2) (.br s.blocks.length)).blocks[b]? = s₁.blocks[b]? := by
    intro b hb
    rw [push_ne s₂ (hne b hb).symm, hD.framed.kept (hlive₂.lt hb), hfirst.kept b hb]
    · exact fun hcb => hne b hb (Option.some.inj hcb)
    · exact fun l hl hlab => (hwaiting l hl b hlab).2 hb
  refine ⟨⟨hframed, ?_⟩, hlive₁.congr hkept⟩
  obtain ⟨r, hr⟩ := hU.runs
  obtain ⟨r', hr'⟩ := hD.runs
  rw [show (s.openDefer cur).finallyBlock = s.finallyBlock from
    congrArg Rest.fin (rest_openDefer s cur)] at hr
  refine ⟨fun k => if k < d + 1 then s.blocks.length else if k < mid then r k else r' k,
    fun t ht hretry σ M x p st hx hat => ?_⟩
  obtain ⟨hretry₀, hretry₁⟩ := hretry.of_ite (Nat.le_succ d) (Nat.le_trans hlo hhi)
  obtain ⟨hretry₁, hretry₂⟩ := hretry₁.of_ite hlo hhi
  have hstart : t.retry d = s.blocks.length := hretry₀ d (Nat.le_refl d) (Nat.lt_succ_self d)
  have ht₂ := hD.framed.completes ht.of_push
  have ht₁ : Completes s₁ t := ⟨ht₂.of_landAt.blocks, ht₂.of_landAt.labels⟩
  have hdefer : ∀ x p st, x.within ld mid hi →
      t.At (s.landDefer s₁) (some (s.blocks.length + 2)) p x →
      Lands t M s.padBlockStack s.finallyBlock
        (s₂.push (s.blocks.length + 2) (.br s.blocks.length)) contbb (p.1, p.2, st)
        (Meaning.again d (FD M x st)) := by
    intro x p st hx hat
    rw [← hfin]
    refine (hr' ht.of_push hretry₂ M x p st hx hat).andThen fun st b is hb his => ?_
    cases hb
    rw [Lands, hstart]
    exact .single (ht.step M st (push_self s₂ his))
  have hundefer : ∀ x p st, x.within lu (d + 1) mid →
      t.At (s.openDefer cur) (some s.blocks.length) p x →
      Lands t M s.padBlockStack s.finallyBlock
        (s₂.push (s.blocks.length + 2) (.br s.blocks.length)) contbb (p.1, p.2, st)
        ((FU M x st).handle fun st => Meaning.again d (FD M .start st)) := by
    intro x p st hx hat
    refine ((hr ht₁ hretry₁ M x p st hx hat).congr hkept).handle fun st => ?_
    have hcalls := hdefer .start (s.blocks.length + 2, 0) st rfl
      ⟨[], rfl, hfirst.catch_.empty, rfl⟩
    exact hcalls.of_reaches (reaches_landAt ht₂ hfirst.pad.empty M st)
  have hagain : ∀ st, Lands t M s.padBlockStack s.finallyBlock
      (s₂.push (s.blocks.length + 2) (.br s.blocks.length)) contbb (s.blocks.length, 0, st)
      ((FU M .start st).handle fun st => Meaning.again d (FD M .start st)) := fun st =>
    hundefer .start (s.blocks.length, 0) st rfl
      ⟨[], rfl, (openDefer_reserved hlab hlive (k := 0) (by decide)).empty, rfl⟩
  by_cases hx₁ : x = .retry d ∨ x.within lu (d + 1) mid
  · rw [if_pos hx₁]
    by_cases hretry : x = .retry d
    · subst hretry
      cases hat
      rw [if_pos rfl, hstart]
      exact hagain st
    · rw [if_neg hretry]
      by_cases hstart : x = .start
      · subst hstart
        obtain ⟨is, hcur, his, hk⟩ := hat
        cases hcur
        have hold := (mkLLVMBlocks_old s 3 (hlive.lt rfl)).trans his
        have hstep := (hU.framed.completes ht₁).step M st (push_self (s.mkLLVMBlocks 3) hold)
        rw [hk]
        exact (hagain st).of_reaches (.next hstep (.refl _))
      · exact hundefer x p st (hx₁.resolve_left hretry) (hat.elsewhere hstart)
  · rw [if_neg hx₁]
    obtain ⟨hretry, hx₁⟩ := not_or.mp hx₁
    have hne : x ≠ .start := by
      rintro rfl
      exact hx₁ rfl
    exact hdefer x p st ((within_append (within_succ hx hretry)).resolve_left hx₁)
      (hat.elsewhere hne)

theorem simulated_defer {undefer defer : BnodeTree} (hu : Simulated kept fn undefer)
    (hd : Simulated kept fn defer) : Simulated kept fn (.deferStmt undefer defer) := by
  intro s s' cur cur' d last hready hregular hwalk
  simp only [walkWith, Option.bind_eq_bind, Option.bind_eq_some_iff] at hwalk
  obtain ⟨⟨contbb, s₁⟩, hundefer, ⟨bb, s₂⟩, hdefer, hwalk⟩ := hwalk
  split_ifs at hwalk with hbb
  cases hwalk
  dsimp only at hdefer hbb
  subst hbb
  simp only [BnodeTree.isRegular, Bool.and_eq_true] at hregular
  rw [BnodeTree.labels] at hready ⊢
  have hin := openDefer_framed hready.labelled hready.live
  have hrest₀ := rest_openDefer s cur
  have hfin₀ : (s.openDefer cur).FinInPad := fun _ => by
    rw [hrest₀]
    exact List.cons_ne_nil _ _
  have hready₀ := hready.step hin (live_of_nil
    (openDefer_reserved hready.labelled hready.live (k := 0) (Nat.succ_pos 2)).empty) hfin₀
  obtain ⟨hcode, hstops⟩ := hu (d + 1) false hready₀.first hregular.1 hundefer
  have hlive := hstops.live rfl
  have hfirst := firstPart hready.labelled hready.live hcode.framed
  have hrest₁ : (s.landDefer s₁).rest = s.rest.keep undefer.returns := by
    rw [landDefer, rest_landAt, rest_setPads, hstops.rest, hrest₀]
    rfl
  have hpads₁ : (s.landDefer s₁).padBlockStack = s.padBlockStack := congrArg Rest.pads hrest₁
  have hfin₁ : (s.landDefer s₁).finallyBlock = s.finallyBlock := congrArg Rest.fin hrest₁
  have hready₁ := hready.after hfirst.framed (hlive.congr hfirst.kept)
    (hready.finInPad.of_rest hrest₁)
  obtain ⟨hcode', hstops'⟩ := hd (d + 1 + undefer.defers) false
    (hready₁.stop.moveTo ⟨hfirst.catch_.empty, hfirst.catch_.plain,
      fun hn => Option.some_ne_none _ hn.symm⟩) (hpads₁ ▸ hregular.2) hdefer
  rw [hfin₁] at hcode'
  rw [show (s.openDefer cur).finallyBlock = s.finallyBlock from congrArg Rest.fin hrest₀] at hcode
  obtain ⟨hboth, hlive'⟩ := defer_translated hready.labelled hready.live hcode hlive
    hready₁.waiting hfin₁ hcode' (Nat.le_add_right _ _) (Nat.le_add_right _ _)
  rw [BnodeTree.defers, BnodeTree.returns, ← Nat.add_assoc, ← Nat.add_assoc]
  refine ⟨hboth.congr fun M x st _ => ?_, fun _ => hlive', ?_, hstops.ends⟩
  · rw [Meaning.run]
    rfl
  · rw [rest_push, hstops'.rest, hrest₁, Rest.keep_append]

end Defer

/-! ## Exceptions -/

/-- The landing pad of an exception statement, and the block of its finally part. -/
def openExcep (s : GenBlocks) (hasFinally : Bool) : GenBlocks :=
  ((s.mkLLVMBlocks 2).setPads [s.blocks.length]).setFinally
    (if hasFinally then some (s.blocks.length + 1) else none)

/-- The code for an exception begins, after the body's part `s₁` of the walk. -/
def landExcep (s s₁ : GenBlocks) (cur₁ : Option BlockRef) : GenBlocks :=
  (((s₁.leave cur₁ (s.blocks.length + 1)).mkLLVMBlocks 2).landAt s.blocks.length
    s₁.blocks.length).setPads [s₁.blocks.length + 1]

/-- The finally part begins, after the part `s₂` of the code for an exception. -/
def closeExcep (s s₁ s₂ : GenBlocks) (bb : Option BlockRef) : GenBlocks :=
  (((s₂.leave bb (s.blocks.length + 1)).setPads []).setFinally none).landAt
    (s₁.blocks.length + 1) (s.blocks.length + 1)

section Excep

variable {s s₁ s₂ : GenBlocks} {cur cur₁ bb : Option BlockRef} {lb lo : List LabelId}

theorem Reserved.mkLLVMBlocks {b : BlockRef} (h : s.Reserved cur b) (n : ℕ) :
    (s.mkLLVMBlocks n).Reserved cur b where
  empty := (mkLLVMBlocks_old s n h.lt).trans h.empty
  plain := by
    intro l hl
    rw [labelmap_mkLLVMBlocks] at hl
    exact h.plain l hl
  away := h.away

theorem openExcep_framed (hlab : s.Labelled) (hasFinally : Bool) :
    Framed [] s cur (s.openExcep hasFinally) cur :=
  ((Framed.refl hlab).mkLLVMBlocks 2).congr rfl rfl

theorem openExcep_reserved (hlab : s.Labelled) (hlive : s.Live cur) (hasFinally : Bool) {k : ℕ}
    (hk : k < 2) : (s.openExcep hasFinally).Reserved cur (s.blocks.length + k) := by
  have hres := mkLLVMBlocks_reserved hlab hlive hk
  exact ⟨hres.empty, hres.plain, hres.away⟩

theorem rest_landExcep (s s₁ : GenBlocks) (cur₁ : Option BlockRef) :
    (s.landExcep s₁ cur₁).rest = { s₁.rest with pads := [s₁.blocks.length + 1] } := by
  rw [landExcep, rest_setPads, rest_landAt, rest_mkLLVMBlocks, rest_leave]

theorem rest_closeExcep (s s₁ s₂ : GenBlocks) (bb : Option BlockRef) :
    (s.closeExcep s₁ s₂ bb).rest = ⟨[], none, s₂.rest.cached⟩ := by
  rw [closeExcep, rest_landAt, rest_setFinally, rest_setPads, rest_leave]

/-- What there is after the body: the blocks for what comes next. -/
structure BodyPart (lb : List LabelId) (s : GenBlocks) (cur : Option BlockRef) (s₁ : GenBlocks)
    (cur₁ : Option BlockRef) : Prop where
  framed : Framed lb s cur (s.landExcep s₁ cur₁) none
  pad : ((s₁.leave cur₁ (s.blocks.length + 1)).mkLLVMBlocks 2).Reserved none s.blocks.length
  cont : (s.landExcep s₁ cur₁).Reserved none (s.blocks.length + 1)
  catch_ : (s.landExcep s₁ cur₁).Reserved none s₁.blocks.length
  catchPad : (s.landExcep s₁ cur₁).Reserved none (s₁.blocks.length + 1)

theorem bodyPart {hasFinally : Bool} (hlab : s.Labelled) (hlive : s.Live cur)
    (h : Framed lb (s.openExcep hasFinally) cur s₁ cur₁) (hlive₁ : s₁.Live cur₁) :
    BodyPart lb s cur s₁ cur₁ := by
  have hlen : s.blocks.length + 2 ≤ s₁.blocks.length :=
    Nat.le_trans (Nat.le_of_eq (length_mkLLVMBlocks s 2).symm) h.length_le
  have hleave : Framed lb s cur (s₁.leave cur₁ (s.blocks.length + 1)) none := by
    rw [leave_eq_branchTo hlive₁]
    exact ((openExcep_framed hlab hasFinally).trans h).branchTo hlive₁ _
  have hold : ∀ k < 2, ((s₁.leave cur₁ (s.blocks.length + 1)).mkLLVMBlocks 2).Reserved none
      (s.blocks.length + k) := by
    intro k hk
    rw [leave_eq_branchTo hlive₁]
    exact ((h.reserved (openExcep_reserved hlab hlive hasFinally hk)).branchTo _).mkLLVMBlocks 2
  have hnew : ∀ k < 2, ((s₁.leave cur₁ (s.blocks.length + 1)).mkLLVMBlocks 2).Reserved none
      (s₁.blocks.length + k) := by
    intro k hk
    rw [← length_leave s₁ cur₁ (s.blocks.length + 1)]
    exact mkLLVMBlocks_reserved hleave.labelled (live_none _) hk
  have hland : ∀ b, ((s₁.leave cur₁ (s.blocks.length + 1)).mkLLVMBlocks 2).Reserved none b →
      s.blocks.length < b → (s.landExcep s₁ cur₁).Reserved none b := by
    intro b hb hlt
    have hres := hb.landAt (Nat.ne_of_lt hlt) s₁.blocks.length
    exact ⟨hres.empty, hres.plain, hres.away⟩
  have hlt : s.blocks.length < s₁.blocks.length :=
    Nat.lt_of_lt_of_le (Nat.lt_add_of_pos_right (Nat.succ_pos 1)) hlen
  refine ⟨?_, hold 0 (by decide), hland _ (hold 1 (by decide)) (Nat.lt_succ_self _),
    hland _ (hnew 0 (by decide)) hlt, hland _ (hnew 1 (by decide)) (Nat.lt_succ_of_lt hlt)⟩
  have hpad := (hleave.mkLLVMBlocks 2).landAt (Nat.le_refl _) (hold 0 (by decide)).plain
    s₁.blocks.length
  exact hpad.congr rfl rfl

/-- What there is after the code for an exception. -/
structure HandlerPart (ls : List LabelId) (s : GenBlocks) (cur : Option BlockRef)
    (s₁ s₂ : GenBlocks) (bb : Option BlockRef) : Prop where
  framed : Framed ls s cur (s.closeExcep s₁ s₂ bb) none
  pad : (s₂.leave bb (s.blocks.length + 1)).Reserved none (s₁.blocks.length + 1)
  cont : (s.closeExcep s₁ s₂ bb).Reserved none (s.blocks.length + 1)

theorem handlerPart (h : BodyPart lb s cur s₁ cur₁)
    (ho : Framed lo (s.landExcep s₁ cur₁) (some s₁.blocks.length) s₂ bb) (hlive₂ : s₂.Live bb)
    (hlen : s.blocks.length + 2 ≤ s₁.blocks.length) : HandlerPart (lb ++ lo) s cur s₁ s₂ bb := by
  have hle : s.blocks.length ≤ s₁.blocks.length := Nat.le_of_add_right_le hlen
  have hboth := (h.framed.moveTo hle h.catch_.plain).trans ho
  have hleave : Framed (lb ++ lo) s cur (s₂.leave bb (s.blocks.length + 1)) none := by
    rw [leave_eq_branchTo hlive₂]
    exact hboth.branchTo hlive₂ _
  have hother : ∀ b, (s.landExcep s₁ cur₁).Reserved none b → s₁.blocks.length ≠ b →
      (s₂.leave bb (s.blocks.length + 1)).Reserved none b := by
    intro b hb hne
    rw [leave_eq_branchTo hlive₂]
    exact (ho.reserved (hb.moveTo hne)).branchTo _
  have hpad := hother _ h.catchPad (Nat.succ_ne_self _).symm
  have hcont := hother _ h.cont (Nat.ne_of_gt (Nat.lt_of_succ_le hlen))
  have hclosed : Framed (lb ++ lo) s cur
      (((s₂.leave bb (s.blocks.length + 1)).setPads []).setFinally none) none :=
    hleave.congr rfl rfl
  have hcont' : (((s₂.leave bb (s.blocks.length + 1)).setPads []).setFinally none).Reserved none
      (s.blocks.length + 1) := ⟨hcont.empty, hcont.plain, hcont.away⟩
  refine ⟨hclosed.landAt (Nat.le_succ_of_le hle) hpad.plain _, hpad, hcont'.landAt ?_ _⟩
  exact Nat.ne_of_gt (Nat.lt_succ_of_lt (Nat.lt_of_succ_le hlen))

/-- The body and the code for an exception, after which the finally part comes whatever happened
in them. -/
theorem caught_lands {hasFinally : Bool} {d mid hi : ℕ}
    {FB FO : ∀ {σ : Type}, Meaning fn σ → EntryPoint → σ → Outcome σ} (hlab : s.Labelled)
    (hlive : s.Live cur)
    (hB : Translated fn lb d mid FB (s.openExcep hasFinally) cur s₁ cur₁) (hlive₁ : s₁.Live cur₁)
    (hfin : s₁.finallyBlock = (s.openExcep hasFinally).finallyBlock)
    (hO : Translated fn lo mid hi FO (s.landExcep s₁ cur₁) (some s₁.blocks.length) s₂ bb)
    (hlive₂ : s₂.Live bb) (hlo : d ≤ mid) (hhi : mid ≤ hi) :
    ∃ r : ℕ → BlockRef, ∀ ⦃t : Target⦄, Completes (s.closeExcep s₁ s₂ bb) t → t.Agrees r d hi →
      ∀ ⦃σ : Type⦄ (M : Meaning fn σ) (x : EntryPoint) (p : BlockRef × ℕ) (st : σ)
        (s' : GenBlocks) (cur' : Option BlockRef) (finish : σ → Outcome σ),
        x.within (lb ++ lo) d hi → t.At s cur p x →
          (∀ st, Lands t M [] none s' cur' (s.blocks.length + 1, 0, st) (finish st)) →
            Lands t M [] none s' cur' (p.1, p.2, st) (Meaning.caught id finish
              (if x.within lb d mid then (FB M x st).handle (FO M .start) else FO M x st)) := by
  have hlen : s.blocks.length + 2 ≤ s₁.blocks.length :=
    Nat.le_trans (Nat.le_of_eq (length_mkLLVMBlocks s 2).symm) hB.framed.length_le
  have hbody := bodyPart hlab hlive hB.framed hlive₁
  have hhandler := handlerPart hbody hO.framed hlive₂ hlen
  obtain ⟨r, hr⟩ := hB.runs
  obtain ⟨r', hr'⟩ := hO.runs
  rw [show (s.landExcep s₁ cur₁).finallyBlock = (s.openExcep hasFinally).finallyBlock from
    (congrArg Rest.fin (rest_landExcep s s₁ cur₁)).trans hfin] at hr'
  refine ⟨fun k => if k < mid then r k else r' k,
    fun t ht hretry σ M x p st s' cur' finish hx hat hfinish => ?_⟩
  obtain ⟨hretry₁, hretry₂⟩ := hretry.of_ite hlo hhi
  have hleave₂ : Completes (s₂.branchTo bb (s.blocks.length + 1)) t := by
    rw [← leave_eq_branchTo hlive₂]
    exact ⟨ht.of_landAt.blocks, ht.of_landAt.labels⟩
  have ht₂ : Completes s₂ t :=
    ((Framed.refl hO.framed.labelled).branchTo hlive₂ _).completes hleave₂
  have hland := hO.framed.completes ht₂
  have hland₁ : Completes (((s₁.leave cur₁ (s.blocks.length + 1)).mkLLVMBlocks 2).landAt
      s.blocks.length s₁.blocks.length) t := ⟨hland.blocks, hland.labels⟩
  have hbranch := (Framed.refl hB.framed.labelled).branchTo hlive₁ (s.blocks.length + 1)
  have hleave₁ : Completes (s₁.branchTo cur₁ (s.blocks.length + 1)) t := by
    rw [← leave_eq_branchTo hlive₁] at hbranch ⊢
    have hblocks : Framed [] (s₁.leave cur₁ (s.blocks.length + 1)) none
        ((s₁.leave cur₁ (s.blocks.length + 1)).mkLLVMBlocks 2) none :=
      (Framed.refl hbranch.labelled).mkLLVMBlocks 2
    exact hblocks.completes hland₁.of_landAt
  -- both parts end in the empty block of the finally part
  have honexc : ∀ x p st, x.within lo mid hi →
      t.At (s.landExcep s₁ cur₁) (some s₁.blocks.length) p x →
      Lands t M [s₁.blocks.length + 1] (s.openExcep hasFinally).finallyBlock
        (s.closeExcep s₁ s₂ bb) (some (s.blocks.length + 1)) (p.1, p.2, st) (FO M x st) :=
    fun x p st hx hat => (hr' ht₂ hretry₂ M x p st hx hat).branchTo hlive₂ hleave₂
      hhandler.cont.empty
  have hfinally : ∀ b, (s.openExcep hasFinally).finallyBlock = some b → b = s.blocks.length + 1 := by
    intro b hb
    change (if hasFinally then some (s.blocks.length + 1) else none) = some b at hb
    split_ifs at hb
    exact (Option.some.inj hb).symm
  refine Lands.caught ?_ hhandler.cont.empty hfinally (reaches_landAt ht hhandler.pad.empty M)
    hfinish
  by_cases hx₁ : x.within lb d mid
  · rw [if_pos hx₁]
    have hin : t.At (s.openExcep hasFinally) cur p x := by
      cases x with
      | start =>
        obtain ⟨is, hcur, his, hk⟩ := hat
        exact ⟨is, hcur, (mkLLVMBlocks_old s 2 (hlive.lt hcur)).trans his, hk⟩
      | label l => exact hat
      | retry k => exact hat
    have hlands := (hr (hbranch.completes hleave₁) hretry₁ M x p st hx₁ hin).branchTo hlive₁
      hleave₁ hhandler.cont.empty
    refine hlands.handle fun st => ?_
    exact (honexc .start (s₁.blocks.length, 0) st rfl
      ⟨[], rfl, hbody.catch_.empty, rfl⟩).of_reaches (reaches_landAt hland₁ hbody.pad.empty M st)
  · rw [if_neg hx₁]
    have hne : x ≠ .start := by
      rintro rfl
      exact hx₁ rfl
    exact honexc x p st ((within_append hx).resolve_left hx₁) (hat.elsewhere hne)

end Excep

/-! ### Returns that are kept -/

mutual
theorem isCode_of_mem_returns {pad : Bool} {r : BnodeTree × InstRef} :
    ∀ (n : BnodeTree) (last : Bool), n.isRegular fn pad last → r ∈ n.returns → r.1.isCode
  | .expr kids _ _, _, h, hr => by
    rw [BnodeTree.isRegular] at h
    rw [BnodeTree.returns] at hr
    exact isCode_of_mem_returnsAll kids false h hr
  | .exprStmt e, _, h, hr => by
    rw [BnodeTree.isRegular] at h
    rw [BnodeTree.returns] at hr
    exact isCode_of_mem_returns e false h hr
  | .block _ stmts, last, h, hr => by
    rw [BnodeTree.isRegular] at h
    rw [BnodeTree.returns] at hr
    exact isCode_of_mem_returnsAll stmts last h hr
  | .ifStmt cond trueBlock falseBlock, _, h, hr => by
    simp only [BnodeTree.isRegular, Bool.and_eq_true] at h
    simp only [BnodeTree.returns, List.mem_append] at hr
    rcases hr with (hr | hr) | hr
    · exact isCode_of_mem_returns cond false h.1.1 hr
    · exact isCode_of_mem_returns trueBlock false h.1.2 hr
    · exact isCode_of_mem_returns falseBlock false h.2 hr
  | .switchStmt swvalue _ stmts, _, h, hr => by
    simp only [BnodeTree.isRegular, Bool.and_eq_true] at h
    rw [BnodeTree.returns, List.mem_append] at hr
    rcases hr with hr | hr
    · exact isCode_of_mem_returns swvalue false h.1 hr
    · exact isCode_of_mem_returnsCases stmts h.2 hr
  | .returnStmt re ri, _, h, hr => by
    rw [BnodeTree.isRegular] at h
    rw [BnodeTree.returns, List.mem_singleton] at hr
    exact hr ▸ h
  | .deferStmt undefer defer, _, h, hr => by
    simp only [BnodeTree.isRegular, Bool.and_eq_true] at h
    rw [BnodeTree.returns, List.mem_append] at hr
    rcases hr with hr | hr
    · exact isCode_of_mem_returns undefer false h.1 hr
    · exact isCode_of_mem_returns defer false h.2 hr
  | .excepStmt body onexception _ finally_, _, h, hr => by
    simp only [BnodeTree.isRegular, Bool.and_eq_true] at h
    simp only [BnodeTree.returns, List.mem_append] at hr
    rcases hr with (hr | hr) | hr
    · exact isCode_of_mem_returns body false h.1.1.1.1 hr
    · exact isCode_of_mem_returns onexception false h.1.1.1.2 hr
    · exact isCode_of_mem_returns finally_ false h.1.1.2 hr
theorem isCode_of_mem_returnsAll {pad : Bool} {r : BnodeTree × InstRef} :
    ∀ (ns : List BnodeTree) (last : Bool), BnodeTree.areRegular fn pad last ns →
      r ∈ BnodeTree.returnsAll ns → r.1.isCode
  | n :: ns, last, h, hr => by
    rw [BnodeTree.areRegular, Bool.and_eq_true] at h
    rw [BnodeTree.returnsAll, List.mem_append] at hr
    rcases hr with hr | hr
    · exact isCode_of_mem_returns n _ h.1 hr
    · exact isCode_of_mem_returnsAll ns last h.2 hr
theorem isCode_of_mem_returnsCases {pad : Bool} {r : BnodeTree × InstRef} :
    ∀ stmts : List BnodeTree, BnodeTree.casesRegular fn pad stmts →
      r ∈ BnodeTree.returnsAll stmts → r.1.isCode
  | st :: stmts, h, hr => by
    simp only [BnodeTree.casesRegular, Bool.and_eq_true] at h
    rw [BnodeTree.returnsAll, List.mem_append] at hr
    rcases hr with hr | hr
    · exact isCode_of_mem_returns st false h.1.1 hr
    · exact isCode_of_mem_returnsCases stmts h.2 hr
end

variable (kept fn) in
/-- A return that comes after a finally part does what it means. -/
def KeptSimulated : Prop :=
  ∀ ⦃re : BnodeTree⦄ ⦃ri : InstRef⦄ ⦃s s₁ s' : GenBlocks⦄ ⦃cur bb : Option BlockRef⦄ (d : ℕ),
    re.isCode → Ready [] s cur → kept s cur re = some (bb, s₁) → s₁.addReturn fn bb ri = some s' →
      Translated fn [] d d (fun M _ st => M.runReturn (re, ri) st) s cur s' none ∧
        s'.rest = s.rest.keep re.returns

section Kept

variable {s s' s'' : GenBlocks} {cur cur' : Option BlockRef} {ls : List LabelId} {lo hi : ℕ}

/-- Back to a block that control has left. -/
theorem Framed.back (h : Framed ls s cur s' none) (hlive : s.Live cur) :
    Framed ls s cur s' cur where
  labelled := h.labelled
  grown := h.grown
  kept := h.kept
  cursor := fun _ hb => Or.inl hb
  labels := h.labels
  fresh := h.fresh
  pending := by
    intro l b hmem hnone hl
    refine ⟨(h.pending hmem hnone hl).1, fun hb => ?_⟩
    rcases h.fresh hl with hl | hle
    · cases hnone.symm.trans hl
    · exact Nat.not_le_of_lt (hlive.lt hb) hle
  left := fun _ hb _ _ hne => absurd hb hne

/-- Where control does not come to the end, it does not matter what the end is. -/
theorem Translated.closed {F : ∀ {σ : Type}, Meaning fn σ → EntryPoint → σ → Outcome σ}
    (h : Translated fn ls lo hi F s cur s' none) (hframed : Framed ls s cur s'' cur')
    (hblocks : s''.blocks = s'.blocks) (hlabels : s''.labelmap = s'.labelmap) :
    Translated fn ls lo hi F s cur s'' cur' := by
  obtain ⟨-, r, hr⟩ := h
  refine ⟨hframed, r, fun t ht hretry σ M x p st hx hat => ?_⟩
  have hlands := hr ⟨hblocks ▸ ht.blocks, hlabels ▸ ht.labels⟩ hretry M x p st hx hat
  cases ho : F M x st with
  | done st =>
    rw [ho] at hlands
    obtain ⟨b, is, hb, -⟩ := hlands
    cases hb
  | _ =>
    rw [ho] at hlands
    exact hlands

end Kept

/-- The finally part, and after it the return that has been kept. -/
theorem finally_translated {s s₁ s' : GenBlocks} {cur₁ cur' : Option BlockRef}
    {contbb : BlockRef} {finally_ : BnodeTree} {ret : Option (BnodeTree × InstRef)} (d : ℕ)
    (hk : KeptSimulated kept fn) (hf : Simulated kept fn finally_)
    (hready : Ready finally_.labels s (some contbb)) (hregular : finally_.isRegular fn false false)
    (hrest : s.rest = ⟨[], none, ret⟩) (hret : ∀ r, ret = some r → r.1.isCode)
    (hfinally : walkWith kept fn s (some contbb) finally_ = some (cur₁, s₁))
    (hwalk : (match s₁.cachedReturn with
      | none => some (cur₁, s₁)
      | some (re, ri) => do
        let (bb, s) ← kept s₁ cur₁ re
        let s ← s.addReturn fn bb ri
        if cur₁ = bb then some (cur₁, s.setCached none) else none) = some (cur', s')) :
    Translated fn finally_.labels d (d + finally_.defers) (fun M x st =>
        (M.run M.movedReturns false d finally_ x st).andThen (M.runKept ret)) s (some contbb) s' cur' ∧
      (ret = none → s'.Live cur') ∧ s'.rest = ⟨[], none, none⟩ ∧
        cur'.isSome = finally_.ends true := by
  have hpads : s.padBlockStack = [] := congrArg Rest.pads hrest
  have hfin : s.finallyBlock = none := congrArg Rest.fin hrest
  obtain ⟨hcode, hstops⟩ := hf d false hready (hpads ▸ hregular) hfinally
  rw [hfin, Option.isSome_none] at hcode
  have hrest₁ : s₁.rest = ⟨[], none, ret⟩ := by
    rw [hstops.rest, hrest]
    rfl
  have hlive := hstops.live rfl
  rw [show s₁.cachedReturn = ret from congrArg Rest.cached hrest₁] at hwalk
  cases ret with
  | none =>
    cases hwalk
    refine ⟨hcode.congr fun M x st _ => ?_, fun _ => hlive, hrest₁, hstops.ends⟩
    have hnone : M.runKept none = .done := by
      funext st
      rw [Meaning.runKept]
    rw [hnone, Outcome.andThen_done]
  | some ret =>
    obtain ⟨re, ri⟩ := ret
    simp only [Option.bind_eq_bind, Option.bind_eq_some_iff] at hwalk
    obtain ⟨⟨bb, s₃⟩, hre, s₄, hadd, hwalk⟩ := hwalk
    split_ifs at hwalk with hbb
    cases hwalk
    dsimp only at hadd hbb
    rw [← List.append_nil finally_.labels] at hready
    have hready₁ := hready.after hcode.framed hlive (hready.finInPad.of_rest hstops.rest)
    obtain ⟨hkept, hrest₄⟩ := hk (d + finally_.defers) (hret _ rfl) hready₁ hre hadd
    have hboth := hcode.andThen hkept hstops.pads hstops.fin (Nat.le_add_right _ _)
      (Nat.le_refl _)
    have hback := hcode.framed.trans (hkept.framed.back hlive)
    rw [List.append_nil] at hboth hback
    have hend : Framed finally_.labels s (some contbb) (s₄.setCached none) cur₁ :=
      hback.congr rfl rfl
    refine ⟨(hboth.closed hend rfl rfl).congr fun M x st hx => ?_, fun hn => ?_, ?_, hstops.ends⟩
    · rw [if_pos hx]
      rfl
    · cases hn
    · have hset : (s₄.setCached none).rest = { s₄.rest with cached := none } := rfl
      rw [hset, hrest₄, hrest₁]
      rfl

/-! ### Exception statements -/

/-- What an exception statement means from an entry to one of the parts before the finally
part. -/
theorem run_excep_caught {body onexception finally_ : BnodeTree} {hasFinally fin : Bool} {d : ℕ}
    {x : EntryPoint} (M : Meaning fn σ) (st : σ)
    (hx : x.within (body.labels ++ onexception.labels) d
      (d + body.defers + onexception.defers)) :
    M.run M.movedReturns fin d (.excepStmt body onexception hasFinally finally_) x st = Meaning.caught id
      (fun st => if hasFinally then
        (M.run M.movedReturns false (d + body.defers + onexception.defers) finally_ .start st).andThen
          (M.runKept (body.returns ++ onexception.returns).head?)
        else .done st)
      (if x.within body.labels d (d + body.defers) then
        (M.run M.movedReturns hasFinally d body x st).handle
          (M.run M.movedReturns hasFinally (d + body.defers) onexception .start)
        else M.run M.movedReturns hasFinally (d + body.defers) onexception x st) := by
  rw [Meaning.run, EntryPoint.into, EntryPoint.into]
  by_cases hx₁ : x.within body.labels d (d + body.defers)
  · rw [if_pos hx₁, if_pos hx₁]
    cases hasFinally <;> rfl
  · rw [if_neg hx₁, if_neg hx₁, if_pos ((within_append hx).resolve_left hx₁)]
    cases hasFinally <;> rfl

/-- And from an entry to the finally part. -/
theorem run_excep_finally {body onexception finally_ : BnodeTree} {fin : Bool} {d : ℕ}
    {x : EntryPoint} (M : Meaning fn σ) (st : σ)
    (hx : ¬x.within (body.labels ++ onexception.labels) d
      (d + body.defers + onexception.defers)) :
    M.run M.movedReturns fin d (.excepStmt body onexception true finally_) x st =
      (M.run M.movedReturns false (d + body.defers + onexception.defers) finally_ x st).andThen
        (M.runKept (body.returns ++ onexception.returns).head?) := by
  have hleft : ¬x.within body.labels d (d + body.defers) := fun h =>
    hx (within_weaken h (List.subset_append_left _ _) (Nat.le_refl d) (Nat.le_add_right _ _))
  have hright : ¬x.within onexception.labels (d + body.defers)
      (d + body.defers + onexception.defers) := fun h =>
    hx (within_weaken h (List.subset_append_right _ _) (Nat.le_add_right _ _) (Nat.le_refl _))
  rw [Meaning.run, EntryPoint.into, EntryPoint.into, if_neg hleft, if_neg hright]
  rfl

theorem simulated_excep {body onexception finally_ : BnodeTree} (hasFinally : Bool)
    (hk : KeptSimulated kept fn) (hb : Simulated kept fn body) (ho : Simulated kept fn onexception)
    (hf : Simulated kept fn finally_) :
    Simulated kept fn (.excepStmt body onexception hasFinally finally_) := by
  intro s s' cur cur' d last hready hregular hwalk
  rw [walkWith] at hwalk
  simp only [Option.bind_eq_bind, Option.bind_eq_some_iff, Option.guard_eq_some'] at hwalk
  obtain ⟨-, ⟨hpads, hcached⟩, ⟨cur₁, s₁⟩, hbody, ⟨bb, s₂⟩, hon, hwalk⟩ := hwalk
  rw [Option.isNone_iff_eq_none] at hcached
  dsimp only at hon hwalk
  have hnofin : s.finallyBlock = none := by
    by_contra hsome
    exact hready.finInPad (Option.isSome_iff_ne_none.mpr hsome) hpads
  simp only [BnodeTree.isRegular, Bool.and_eq_true] at hregular
  obtain ⟨⟨⟨⟨hregB, hregO⟩, hregF⟩, hthere⟩, hlast⟩ := hregular
  rw [BnodeTree.labels, List.append_assoc] at hready
  have hisSome : (s.openExcep hasFinally).finallyBlock.isSome = hasFinally :=
    isSome_finally hasFinally _
  have hrest₀ : (s.openExcep hasFinally).rest =
      ⟨[s.blocks.length], (s.openExcep hasFinally).finallyBlock, none⟩ := by
    rw [← hcached]
    exact rest_excep s _
  -- the body
  have hready₀ := hready.step (openExcep_framed hready.labelled hasFinally)
    (hready.live.mkLLVMBlocks 2) (finInPad_excep s _)
  obtain ⟨hcodeB, hstopsB⟩ := hb d false hready₀.first hregB hbody
  have hliveB := hstopsB.live rfl
  have hpart := bodyPart hready.labelled hready.live hcodeB.framed hliveB
  have hlen : s.blocks.length + 2 ≤ s₁.blocks.length :=
    Nat.le_trans (Nat.le_of_eq (length_mkLLVMBlocks s 2).symm) hcodeB.framed.length_le
  -- the code for an exception
  have hready₁ := hready.after hpart.framed (live_none _) fun _ => by
    rw [rest_landExcep]
    exact List.cons_ne_nil _ _
  obtain ⟨hcodeO, hstopsO⟩ := ho (d + body.defers) false (hready₁.first.moveTo hpart.catch_) hregO
    hon
  have hliveO := hstopsO.live rfl
  have hparts := handlerPart hpart hcodeO.framed hliveO hlen
  have hfinO : (s.landExcep s₁ cur₁).finallyBlock = (s.openExcep hasFinally).finallyBlock :=
    (congrArg Rest.fin (rest_landExcep s s₁ cur₁)).trans hstopsB.fin
  rw [hfinO, hisSome] at hcodeO
  rw [hisSome] at hcodeB
  obtain ⟨r, hr⟩ := caught_lands hready.labelled hready.live hcodeB hliveB hstopsB.fin hcodeO hliveO
    (Nat.le_add_right _ _) (Nat.le_add_right _ _)
  have hrest₂ : (s.closeExcep s₁ s₂ bb).rest =
      ⟨[], none, if hasFinally then (body.returns ++ onexception.returns).head? else none⟩ := by
    rw [rest_closeExcep, hstopsO.rest, rest_landExcep, hstopsB.rest, hrest₀]
    cases hasFinally <;> simp [Rest.keep, hisSome, List.head?_append]
  have hkeep : ∀ rets, s.rest.keep rets = ⟨[], none, none⟩ := by
    intro rets
    simp [Rest.keep, GenBlocks.rest, hnofin, hpads, hcached]
  rw [← List.append_assoc] at hready
  have hready₂ := (hready.after hparts.framed (live_none _) fun h => by
    rw [hrest₂] at h
    cases h).moveTo hparts.cont
  have hcont := hparts.framed.moveTo (Nat.le_succ _) hparts.cont.plain
  rw [BnodeTree.labels, BnodeTree.defers, ← Nat.add_assoc, ← Nat.add_assoc]
  cases hasFinally with
  | false =>
    cases hwalk
    obtain ⟨hlabels, hdefers⟩ := labels_of_isCode finally_ hthere
    rw [hlabels, hdefers, List.append_nil]
    refine ⟨⟨hcont, r, fun t ht hretry σ M x p st hx hat => ?_⟩,
      fun _ => live_of_nil hparts.cont.empty, ?_, rfl⟩
    · rw [hpads, hnofin, run_excep_caught M st hx]
      refine hr ht hretry M x p st _ _ _ hx hat fun st => ?_
      exact ⟨_, [], rfl, hparts.cont.empty, .refl _⟩
    · rw [hkeep]
      exact hrest₂
  | true =>
    rw [if_pos rfl] at hwalk hrest₂
    obtain ⟨⟨cur₂, s₃⟩, hfinally, hwalk⟩ := Option.bind_eq_some_iff.mp hwalk
    have hcodes : ∀ ret, (body.returns ++ onexception.returns).head? = some ret → ret.1.isCode := by
      intro ret hret
      rcases List.mem_append.mp (List.mem_of_head? hret) with hmem | hmem
      · exact isCode_of_mem_returns body false hregB hmem
      · exact isCode_of_mem_returns onexception false hregO hmem
    obtain ⟨hcodeF, hliveF, hrest', hends⟩ := finally_translated
      (d + body.defers + onexception.defers) hk hf hready₂ hregF hrest₂ hcodes hfinally hwalk
    obtain ⟨hframedF, r', hr'⟩ := hcodeF
    rw [show (s.closeExcep s₁ s₂ bb).padBlockStack = [] from congrArg Rest.pads hrest₂,
      show (s.closeExcep s₁ s₂ bb).finallyBlock = none from congrArg Rest.fin hrest₂] at hr'
    refine ⟨⟨hcont.trans hframedF,
      fun k => if k < d + body.defers + onexception.defers then r k else r' k,
      fun t ht hretry σ M x p st hx hat => ?_⟩, fun hnot => ?_, hrest'.trans (hkeep _).symm, ?_⟩
    · obtain ⟨hretry₁, hretry₂⟩ := hretry.of_ite
        (Nat.le_trans (Nat.le_add_right _ _) (Nat.le_add_right _ _)) (Nat.le_add_right _ _)
      rw [hpads, hnofin]
      by_cases hx₁ : x.within (body.labels ++ onexception.labels) d
          (d + body.defers + onexception.defers)
      · rw [run_excep_caught M st hx₁]
        refine hr (hframedF.completes ht) hretry₁ M x p st _ _ _ hx₁ hat fun st => ?_
        exact hr' ht hretry₂ M .start (s.blocks.length + 1, 0) st rfl
          ⟨[], rfl, hparts.cont.empty, rfl⟩
      · rw [run_excep_finally M st hx₁]
        have hne : x ≠ .start := by
          rintro rfl
          exact hx₁ rfl
        exact hr' ht hretry₂ M x p st ((within_append hx).resolve_left hx₁) (hat.elsewhere hne)
    · refine hliveF ?_
      rw [hnot, Bool.false_or, Bool.not_true, Bool.false_or, List.isEmpty_iff] at hlast
      rw [hlast, List.head?_nil]
    · rw [hends]
      rfl

/-! ## All statements -/

mutual
theorem simulated (hk : KeptSimulated kept fn) : ∀ n : BnodeTree, Simulated kept fn n
  | .expr kids value insts => simulated_expr value insts (allSimulated hk kids)
  | .exprStmt e => by
    intro s s' cur cur' d last hready hregular hwalk
    simp only [walkWith] at hwalk
    simp only [BnodeTree.isRegular] at hregular
    simp only [BnodeTree.labels] at hready
    obtain ⟨hcode, hstops⟩ := simulated hk e d false hready hregular hwalk
    simp only [BnodeTree.labels, BnodeTree.defers, BnodeTree.returns, BnodeTree.ends]
    refine ⟨hcode.congr fun M x st _ => ?_, ⟨fun _ => hstops.live rfl, hstops.rest, hstops.ends⟩⟩
    rw [Meaning.run]
  | .block vars stmts => simulated_block vars (allSimulated hk stmts)
  | .ifStmt cond trueBlock falseBlock =>
    simulated_if (simulated hk cond) (simulated hk trueBlock) (simulated hk falseBlock)
  | .switchStmt swvalue _ stmts => simulated_switch (simulated hk swvalue) (casesSimulated hk stmts)
  | .gotoStmt label => simulated_goto label
  | .labelStmt label => simulated_label label
  | .returnStmt re ri => simulated_return ri (simulated hk re)
  | .deferStmt undefer defer => simulated_defer (simulated hk undefer) (simulated hk defer)
  | .excepStmt body onexception hasFinally finally_ =>
    simulated_excep hasFinally hk (simulated hk body) (simulated hk onexception)
      (simulated hk finally_)
theorem allSimulated (hk : KeptSimulated kept fn) : ∀ ns : List BnodeTree, AllSimulated kept fn ns
  | [] => allSimulated_nil
  | n :: ns => allSimulated_cons (simulated hk n) (allSimulated hk ns)
theorem casesSimulated (hk : KeptSimulated kept fn) :
    ∀ stmts : List BnodeTree, CasesSimulated kept fn stmts
  | [] => casesSimulated_nil
  | st :: stmts => casesSimulated_cons (simulated hk st) (casesSimulated hk stmts)
end

/-- There is no exception statement in a return that is kept. -/
theorem simulated_kept (n : BnodeTree) : Simulated (fun _ _ _ => none) fn n :=
  simulated (fun _ _ _ _ _ _ _ _ _ _ hnone => absurd hnone.symm (Option.some_ne_none _)) n

/-- The blocks that the walk of a statement makes do what the statement means. -/
theorem walk_simulated (n : BnodeTree) : Simulated (walkKept fn) fn n :=
  simulated (fun re _ _ _ _ _ _ _ hcode hready hre hadd =>
    return_translated (simulated_kept re) hcode hready hre hadd) n

end Statements
end GenBlocks
end Dragongo

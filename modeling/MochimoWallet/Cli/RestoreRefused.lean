import MochimoWallet.Cli.Restore
import MochimoWallet.Keystore.Atomic
import MochimoWallet.Keystore.Fates

/-!
# What a refused restore leaves

A restore writes once, in the commit of the account it adds, and every failure of that
commit is reported as the store's refusal, with nothing written. That is so while the
commit fails before its rename takes effect. From there on the image that has the
account is the snapshot, and the refusal is still what the caller is given
(`restore_refusal_keeps`).
-/

namespace MochimoWallet.Cli

open Codec Words Keystore Session

section
variable [Crypto]

section
variable {D : Type} [Layout D] {master : Secret} {accountIndex : UInt32} {scanTo : Option UInt32}
  {s s' : Session D}

/-- A restore that cannot be stopped, from its scan. -/
structure RestoreFrom (s s' : Session D) (master : Secret) (accountIndex : UInt32)
    (r : Reply (Unfinished RestoreFailure) Restored)
    (scanned : Reply RestoreFailure RestoredAccount) : Prop where
  stopped : (∀ found, scanned ≠ .ok found) → s'.store = s.store
  held : ∀ found, scanned = .ok found → s.store.ks.view found.tag ≠ .ok none → s'.store = s.store
  new : ∀ found, scanned = .ok found → s.store.ks.view found.tag = .ok none → ∃ written,
    add { Account.derive master accountIndex with wotsIndex := found.index } s.store =
      (written, s'.store) ∧
    r = (written.mapErr fun cause => .refused (.cannotStore found.tag cause)).map fun _ =>
      ⟨found, none⟩

theorem restore_never {r : Reply (Unfinished RestoreFailure) Restored}
    (h : restoreAsking master accountIndex scanTo .never s = (r, s')) :
    ∃ scanned, restoreAccountIndexWith master accountIndex (restoreScope scanTo) .never s.node =
      (scanned, s'.node) ∧ RestoreFrom s s' master accountIndex r scanned := by
  have hask {ε : Type} (t : Session D) :
      (asking (fun _ => Wallet.askStop .never) : Call (Session D) ε Bool) t = (.ok false, t) := rfl
  unfold restoreAsking at h
  rw [Call.bind_of_ok (hask s)] at h
  simp only [Wallet.stopIf, Bool.false_eq_true, if_false, Call.pure_bind] at h
  rcases Call.bind_cases h with ⟨scanned, t, hscan, h⟩ | ⟨e, hscan, -⟩ | ⟨hscan, rfl⟩ <;>
    obtain ⟨ht, hscan⟩ := asking_cases hscan <;>
    rcases Call.attempt_cases hscan with ⟨found, hr, hscan⟩ | ⟨hr, hscan⟩ <;> cases hr
  · rcases scanned with failure | found
    · have hend : s' = t := by
        dsimp only at h
        split at h <;> cases h <;> rfl
      subst hend
      exact ⟨_, hscan, fun _ => ht, fun _ hf => by (cases hf), fun _ hf => by (cases hf)⟩
    · dsimp only at h
      rw [Call.get_bind] at h
      rcases hview : s.store.ks.view found.tag with cause | _ | view <;>
        rw [ht, hview] at h
      · cases h
        exact ⟨_, hscan, fun _ => ht, fun _ _ _ => ht, fun _ hf hnone => by
          cases hf
          rw [hview] at hnone
          cases hnone⟩
      · have hplaced : placedAt master accountIndex found.index =
            .ok { Account.derive master accountIndex with wotsIndex := found.index } :=
          placedAt_eq_ok.mpr rfl
        simp only [hplaced, Except.mapError, Call.check_ok, Call.pure_bind] at h
        rw [Call.bind_of_ok (hask t)] at h
        simp only [Bool.false_eq_true, if_false, Call.pure_bind] at h
        rcases hw : writing (D := D) ((add { Account.derive master accountIndex with
          wotsIndex := found.index }).mapErr fun cause => Unfinished.refused
            (RestoreFailure.cannotStore found.tag cause)) t with ⟨w, u⟩
        cases (Call.map_apply hw).symm.trans h
        obtain ⟨hnode, hwritten⟩ := writing_cases hw
        obtain ⟨written, hcall, rfl⟩ := Call.mapErr_cases hwritten
        rw [ht] at hcall
        refine ⟨_, hnode ▸ hscan, fun hno => absurd rfl (hno found), fun _ hf hsome => ?_,
          fun _ hf _ => ?_⟩
        · cases hf
          exact absurd hview hsome
        · cases hf
          exact ⟨written, hcall, rfl⟩
      · cases h
        exact ⟨_, hscan, fun _ => ht, fun _ _ _ => ht, fun _ hf hnone => by
          cases hf
          rw [hview] at hnone
          cases hnone⟩
  · exact ⟨_, hscan, fun _ => ht, fun _ hf => by (cases hf), fun _ hf => by (cases hf)⟩

end

/-! ## Refusals of a restore -/

/-- The restore gets as far as a commit, of the state `p'`: the node's answer is of a position in the
scope, the store takes the account there, and the handle can seal the state it would make. -/
structure Commits (master : Secret) (accountIndex : UInt32) (scanTo : Option UInt32) (n : Node)
    (ks : Keystore) (p p' : Parsed) : Prop where
  taken : ∃ entry entries position, n.entries = .ok entry :: entries ∧
    tagOf entry.address = (deriveAccount master accountIndex).tag ∧
    Placed master accountIndex (restoreScope scanTo).ceiling entry.address position ∧
    p.next (.add { Account.derive master accountIndex with wotsIndex := position }) = .ok p'
  live : ks.memory = some p
  sealable : ∃ image, imageOf ks.crypto p' = .ok image

/-- The directory gives back one state. -/
theorem reopens_unique {password : Bytes} {m : UnixMedium} {p p' : Parsed}
    (h : Reopens password m p) (hread : World.reading password m.disk.snapshot = some p') :
    p = p' := by
  obtain ⟨ks, m', hopen, hm⟩ := h (.zero nonceSeedLen)
  obtain ⟨image, himage, hread⟩ := World.reading_eq_some.mp hread
  obtain ⟨ks', hopen', hm'⟩ := openWith_good (.zero nonceSeedLen) himage hread
  rw [hopen] at hopen'
  cases hopen'
  rw [hm] at hm'
  exact Option.some.inj hm'

/-- A refused restore leaves the store's state as it was, exactly unless it got to its commit and
the commit failed with its rename done. -/
theorem restore_refusal_keeps (hl : Crypto.Lawful) {password : Bytes} {ok : World → Event → Prop}
    {w₀ w : World} (hclosed : w₀.handle = none) (hrun : World.Run password ok w₀ w) {ks : Keystore}
    {p : Parsed} (hks : w.handle = some ks) (hstate : w.state password = some p) (master : Secret)
    (accountIndex : UInt32) (scanTo : Option UInt32) (n : Node) (fates : List Fate)
    (calls : List MediumCall) :
    (∀ failure s', restoreAsking master accountIndex scanTo .never
        ⟨⟨ks, ⟨w.disk, fates, calls⟩⟩, n⟩ = (.err (.refused failure), s') →
          Reopens password s'.store.medium p) ↔
      ¬ ((∃ p', Commits master accountIndex scanTo n ks p p') ∧ Fate.installs fates ∧
        Fate.failsIn 4 fates) := by
  have hsound := hrun.sound hl (World.sound_of_closed hclosed)
  have hread {p' : Parsed} {image : Bytes} {op : Op} (hm : ks.memory = some p)
      (hnext : p.next op = .ok p') (himage : imageOf ks.crypto p' = .ok image) :
      World.reading password (some image) = some p' :=
    World.reading_imageOf hl (hsound ks p hks hm).1
      (fun hget => (Parsed.step_of_next hnext).1.touched.tags (World.wf_of_reading hstate) hget) himage
  have hmatch {w : Reply Error Unit} {a : Option AdvanceReceipt} {reply : Reply Error Unit}
      (hr : (w.map fun _ => (none : Option AdvanceReceipt)) = reply.map fun _ => a) : w = reply := by
    rcases w with ⟨⟨⟩⟩ | e | _ <;> rcases reply with ⟨⟨⟩⟩ | e' | _ <;> cases hr <;> rfl
  constructor
  · -- The commit is reached, and its failure is what the caller is given.
    rintro hkeeps ⟨⟨p', ⟨entry, entries, position, hentries, htag, hplaced, hnext⟩, hm, hsealed⟩,
      hinstalls, hfails⟩
    rcases hrestore : restoreAsking master accountIndex scanTo .never
      (⟨⟨ks, ⟨w.disk, fates, calls⟩⟩, n⟩ : Session UnixMedium) with ⟨r, s'⟩
    obtain ⟨scanned, hscan, hfrom⟩ := restore_never hrestore
    have hfound := (restoreAccountIndexWith_ok hscan).mpr
      ⟨entry, entries, position, hentries, htag, hplaced, rfl⟩
    have hnew : p.slots.get? (deriveAccount master accountIndex).tag = none := by
      cases (Parsed.step_of_next hnext).1 with
      | add htag => exact htag
    obtain ⟨written, hcall, rfl⟩ := hfrom.new _ hfound (view_eq_none.mpr ⟨p, hm, hnew⟩)
    obtain ⟨reply, hcommitted, hr⟩ := call_sealed hm hnext hsealed (add_call hcall)
    obtain rfl := hmatch hr
    obtain ⟨image, himage, hsteps⟩ := hcommitted.himage
    have hend := steps_fates hsteps
    obtain ⟨e, rfl⟩ := hend.err.mpr hfails
    have hsnapshot : World.reading password s'.store.medium.disk.snapshot = some p' := by
      rw [hend.snapshot, if_pos hinstalls]
      exact hread hm hnext himage
    have hsame := reopens_unique (hkeeps _ s' hrestore) hsnapshot
    have hgeneration := (Parsed.step_of_next hnext).2
    rw [hsame] at hgeneration
    omega
  · intro hnot failure s' h
    obtain ⟨scanned, hscan, hfrom⟩ := restore_never h
    have hsame (hstore : s'.store = ⟨ks, ⟨w.disk, fates, calls⟩⟩) :
        Reopens password s'.store.medium p := by
      rw [hstore]
      exact reopens_of_reading hstate
    by_cases hfound : ∃ found, scanned = .ok found
    swap
    · exact hsame (hfrom.stopped fun found hf => hfound ⟨found, hf⟩)
    obtain ⟨found, rfl⟩ := hfound
    by_cases hview : ks.view found.tag = .ok none
    swap
    · exact hsame (hfrom.held found rfl hview)
    obtain ⟨written, hcall, hr⟩ := hfrom.new found rfl hview
    obtain ⟨q, hm, -⟩ := view_eq_none.mp hview
    have hq : q = p := by
      have hq := (hsound ks q hks hm).2
      rw [hstate] at hq
      exact (Option.some.inj hq).symm
    subst hq
    rcases call_committed hm (add_call hcall) with
      ⟨hstore, -⟩ | ⟨p', reply, hnext, hcommitted, hreply⟩
    · exact hsame hstore
    obtain rfl := hmatch hreply
    obtain ⟨image, himage, hsteps⟩ := hcommitted.himage
    have hend := steps_fates hsteps
    have hfails : Fate.failsIn 4 fates = true := by
      refine hend.err.mp ?_
      rcases written with ⟨⟨⟩⟩ | e | _ <;> cases hr
      exact ⟨e, rfl⟩
    have hkept : ¬ Fate.installs fates := fun hinstalls => hnot ⟨⟨p', ?_, hm, image, himage⟩,
      hinstalls, hfails⟩
    · refine reopens_of_reading ?_
      rw [hend.snapshot, if_neg hkept]
      exact hstate
    · obtain ⟨entry, entries, position, hentries, htag, hplaced, rfl⟩ :=
        (restoreAccountIndexWith_ok hscan).mp rfl
      exact ⟨entry, entries, position, hentries, htag, hplaced, hnext⟩

end

section
attribute [local instance] Crypto.copying

/-- Everything is done but the flush of the directory. -/
def unflushed : List Fate := [.done, .done, .done, .failed false none (.io "fsync_dir" (.other 5))]

/-- A node that says account 0 stands at its first key. -/
def firstHeard : Node := ⟨[.ok ⟨derivedAddressAt sevens 0 ⟨0⟩, 5⟩], [], [], [], []⟩

/-- A restore into the store of `grown`, over steps of these fates. -/
def restoring (store : Opened UnixMedium) (fates : List Fate) :
    Reply (Unfinished RestoreFailure) Restored × Session UnixMedium :=
  restoreAsking sevens 0 (some 3) .never ⟨⟨store.ks, ⟨store.medium.disk, fates, []⟩⟩, firstHeard⟩

/-- The stores of `grown` are reached. -/
theorem grown_reached {commands : ℕ} {store : Opened UnixMedium} {p : Parsed}
    (hstore : grown commands = some store) (hm : store.ks.memory = some p) :
    ∃ w, World.Run [] (fun _ _ => True) World.nowhere w ∧ w.handle = some store.ks ∧
      w.disk = store.medium.disk ∧ w.state [] = some p := by
  obtain ⟨ks, hks, rfl⟩ := Option.map_eq_some_iff.mp hstore
  have hrun := World.run_of_commands [] World.nowhere
    ((growing (.replicate seedLen 9)).take commands)
  exact ⟨_, hrun, hks, rfl,
    (hrun.sound Crypto.copying_lawful (World.sound_of_closed rfl) ks p hks hm).2⟩

theorem restore_refusal_keeps_unflushed :
    ∃ store p, grown 2 = some store ∧ store.ks.memory = some p ∧
      ((∀ failure s', restoring store unflushed = (.err (.refused failure), s') →
          Reopens [] s'.store.medium p) ↔
        ¬ ((∃ p', Commits sevens 0 (some 3) firstHeard store.ks p p') ∧
          Fate.installs unflushed ∧ Fate.failsIn 4 unflushed)) := by
  have hlive : ((grown 2).bind (·.ks.memory)).isSome := by decide +kernel
  obtain ⟨p, hp⟩ := Option.isSome_iff_exists.mp hlive
  obtain ⟨store, hstore, hm⟩ := Option.bind_eq_some_iff.mp hp
  obtain ⟨w, hrun, hks, hdisk, hstate⟩ := grown_reached hstore hm
  refine ⟨store, p, hstore, hm, ?_⟩
  unfold restoring
  rw [← hdisk]
  exact restore_refusal_keeps Crypto.copying_lawful rfl hrun hks hstate sevens 0 (some 3) firstHeard
    unflushed []

/-- The restore is refused as one that wrote nothing, and the store it leaves is not the one it was
given: the account is in it. -/
theorem restore_refused_after_rename :
    ∃ store p s', grown 2 = some store ∧ store.ks.memory = some p ∧ Reopens [] store.medium p ∧
      restoring store unflushed = (.err (.refused (.cannotStore (deriveAccount sevens 0).tag
        (.io "fsync_dir" (.other 5)))), s') ∧ ¬ Reopens [] s'.store.medium p := by
  have hrun : (grown 2).bind (fun store => store.ks.memory.bind fun p =>
      (World.reading [] (restoring store unflushed).2.store.medium.disk.snapshot).map fun p' =>
        ((restoring store unflushed).1, p.generation, p'.generation)) =
      some (.err (.refused (.cannotStore (deriveAccount sevens 0).tag
        (.io "fsync_dir" (.other 5)))), 1, 2) := by
    decide +kernel
  obtain ⟨store, hstore, hrun⟩ := Option.bind_eq_some_iff.mp hrun
  obtain ⟨p, hm, hrun⟩ := Option.bind_eq_some_iff.mp hrun
  obtain ⟨p', hp', hrun⟩ := Option.map_eq_some_iff.mp hrun
  obtain ⟨hreply, hrun⟩ := Prod.mk.inj hrun
  obtain ⟨hbefore, hafter⟩ := Prod.mk.inj hrun
  obtain ⟨w, -, -, hdisk, hstate⟩ := grown_reached hstore hm
  refine ⟨store, p, (restoring store unflushed).2, hstore, hm, reopens_of_reading (hdisk ▸ hstate),
    ?_, fun hkept => ?_⟩
  · rw [← hreply]
  rw [reopens_unique hkept hp', hafter] at hbefore
  cases hbefore

end

end MochimoWallet.Cli

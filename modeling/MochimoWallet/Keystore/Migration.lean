import MochimoWallet.Keystore.Canonical
import MochimoWallet.Keystore.Commits
import MochimoWallet.Keystore.Reservations
import MochimoWallet.Keystore.SlotMedium

/-!
# Migration in place

A version-3 image is read at its own stride, without figures and without settled
blocks (`Parsed.Unfigured`). Opening it rewrites nothing; the first image the handle
commits is of version 4, and `Migrated` says that it holds the version-3 state with the
one operation's change. `upgradedFrom` answers from then on.
-/

namespace MochimoWallet.Keystore

open Codec TwoCopies

section
variable [Crypto]

/-! ## What a version-3 image says -/

/-- No slot has a settled block, and no reservation has figures. -/
structure Parsed.Unfigured (p : Parsed) : Prop where
  settled : ∀ {tag slot}, p.slots.get? tag = some slot → slot.settled = none
  figures : ∀ {tag slot b}, p.slots.get? tag = some slot → slot.pending = some b → b.figures = none

omit [Crypto] in
theorem checkBlock_v3 {at' : ℕ} {flag : UInt8} {index : WotsIndex} {spent : UInt32}
    {digest : Digest} {pending settled : Option Pending}
    (h : checkBlock v3Version at' flag index spent digest none none = .ok (pending, settled)) :
    settled = none ∧ ∀ b, pending = some b → b.figures = none := by
  unfold checkBlock at h
  split at h
  · split at h
    · cases h
    · cases h
      exact ⟨rfl, fun b hb => by cases hb⟩
  split at h
  · next hflag =>
    have hone : flag = 1 := hflag.resolve_right fun htwo => htwo.2 rfl
    split at h
    · cases h
    cases h
    exact ⟨rfl, fun b hb => by cases hb; rfl⟩
  · cases h

theorem parseRecord_v3 {prev : Option Tag} {c c' : Cursor} {tag : Tag} {slot : Slot}
    (h : parseRecord v3Version prev c = .ok ((tag, slot), c')) :
    slot.settled = none ∧ ∀ b, slot.pending = some b → b.figures = none := by
  obtain ⟨f, hf⟩ := fields_of_parseRecord h
  -- The record ends at its digest: there are no figures to read.
  obtain ⟨mid, hraw, -⟩ := hf.read
  rw [takeFigures, if_pos rfl, Except.ok.injEq, Prod.mk.injEq] at hraw
  obtain ⟨figures, hfigures, hblock⟩ := hf.block
  rw [← hraw.1] at hfigures hblock
  cases hfigures
  exact checkBlock_v3 hblock

theorem unfigured_of_parse {image : Bytes} {f : Framed} {key : Block keyLen} {p : Parsed}
    (hread : readHeader image = .ok f) (hv : f.version = v3Version)
    (hparse : parseWithKey image key = .ok p) : p.Unfigured := by
  rw [parseWithKey, hread, ok_bind, hv] at hparse
  obtain ⟨body, -, hparse⟩ := bind_eq_ok.mp hparse
  exact ⟨fun hget => parseBody_slots (fun h => (parseRecord_v3 h).1) hparse hget,
    fun hget => parseBody_slots (fun h => (parseRecord_v3 h).2) hparse hget _⟩

/-! ## What the first commit writes -/

/-- `p'` is `p` with `op`'s own change. -/
structure Carried (p : Parsed) (op : Op) (p' : Parsed) : Prop where
  step : p.Step p' op
  generation : p'.generation.toNat = p.generation.toNat + 1
  master : (∀ master, op ≠ .adoptMaster master) → p'.master = p.master
  /-- Accounts the operation is not about. -/
  others : ∀ tag, op.tag? ≠ some tag → p'.slots.get? tag = p.slots.get? tag
  /-- No account is lost, nor its key material. -/
  kept : ∀ {tag slot}, p.slots.get? tag = some slot →
    ∃ slot', p'.slots.get? tag = some slot' ∧ slot'.account.key = slot.account.key
  /-- The only figures are those of a reservation the operation makes. -/
  figures : ∀ {tag slot b}, p'.slots.get? tag = some slot →
    slot.pending = some b ∨ slot.settled = some b → b.figures = none ∨
      ∃ digest figures, op = .persistAdvance tag digest figures ∧ b.figures = some figures

theorem figures_of_step {p p' : Parsed} {op : Op} (hp : p.Unfigured) (h : p.Step p' op) {tag : Tag}
    {slot : Slot} {b : Pending} (hslot : p'.slots.get? tag = some slot)
    (hb : slot.pending = some b ∨ slot.settled = some b) : b.figures = none ∨
      ∃ digest figures, op = .persistAdvance tag digest figures ∧ b.figures = some figures := by
  have hold {slot : Slot} (hslot : p.slots.get? tag = some slot)
      (hb : slot.pending = some b ∨ slot.settled = some b) : b.figures = none := by
    rcases hb with hb | hb
    · exact hp.figures hslot hb
    · rw [hp.settled hslot] at hb
      cases hb
  by_cases htag : op.tag? = some tag
  · cases h with
    | adoptMaster => cases htag
    | add _ _ _ _ hslots =>
      cases htag
      rw [hslots, OrdMap.get?_insert, if_pos rfl] at hslot
      cases hslot
      rcases hb with hb | hb <;> cases hb
    | persistAdvance hget _ _ hslots =>
      cases htag
      rw [hslots, Parsed.get?_write hget] at hslot
      cases hslot
      rcases hb with hb | hb <;> cases hb
      exact .inr ⟨_, _, rfl, rfl⟩
    | persistAdvanceTo hget _ _ hslots =>
      cases htag
      rw [hslots, Parsed.get?_write hget] at hslot
      cases hslot
      rcases hb with hb | hb <;> cases hb
    | persistSettled hget hopen hslots =>
      cases htag
      rw [hslots, Parsed.get?_write hget] at hslot
      cases hslot
      rcases hb with hb | hb <;> cases hb
      exact .inl (hp.figures hget hopen)
  · rw [h.frame htag] at hslot
    exact .inl (hold hslot hb)

theorem carried_of_next {p p' : Parsed} {op : Op} (hp : p.Unfigured) (h : p.next op = .ok p') :
    Carried p op p' := by
  obtain ⟨hstep, hgeneration⟩ := Parsed.step_of_next h
  refine ⟨hstep, hgeneration, fun hop => ?_, fun tag htag => hstep.frame htag, fun hslot => ?_,
    figures_of_step hp hstep⟩
  · cases hstep with
    | adoptMaster => exact absurd rfl (hop _)
    | add | persistAdvance | persistAdvanceTo | persistSettled => assumption
  · obtain ⟨slot', hslot', rfl | hmove⟩ := hstep.touched.slot hslot
    · exact ⟨slot', hslot', rfl⟩
    · exact ⟨slot', hslot', hmove.key.1⟩

/-- A version-4 image, sealed as the handle seals, of `p` with `op`'s own change. -/
structure Migrated (crypto : StoreCrypto) (p : Parsed) (op : Op) (image : Bytes) : Prop where
  header : ∃ f, readHeader image = .ok f ∧ f.version = version ∧ f.header.kdf = crypto.kdf ∧
    f.header.salt = crypto.salt
  state : ∃ p', parseWithKey image crypto.key = .ok p' ∧ Carried p op p'

theorem migrated_imageOf (hl : Crypto.Lawful) {crypto : StoreCrypto} {p p' : Parsed} {op : Op}
    {image : Bytes} (hwf : p.Wf) (hp : p.Unfigured) (h : p.next op = .ok p')
    (himage : imageOf crypto p' = .ok image) : Migrated crypto p op image := by
  have htouched := (Parsed.step_of_next h).1.touched
  obtain ⟨f, hread, hv, hkdf, hsalt, -, hparse⟩ :=
    parse_imageOf hl (fun hget => htouched.tags hwf hget) himage
  exact ⟨⟨f, hread, hv, hkdf, hsalt⟩, p', hparse, carried_of_next hp h⟩

namespace Trace

variable {ks ks' : Keystore} {ops : List Op} {c : Commit} {cs : List Commit}

/-- Until its first commit a handle holds the state it began with. -/
theorem first (h : Trace ks ops (c :: cs) ks') : ∃ op ∈ ops, ∃ p p', ks.memory = some p ∧
    p.next op = .ok p' ∧ imageOf ks.crypto p' = .ok c.image := by
  generalize hcs : c :: cs = commits at h
  induction h with
  | done => cases hcs
  | nothing _ ih =>
    obtain ⟨op, hop, hfirst⟩ := ih hcs
    exact ⟨op, List.mem_cons_of_mem _ hop, hfirst⟩
  | image hm hnext himage _ _ | killed hm hnext himage _ =>
    cases hcs
    exact ⟨_, List.mem_cons_self, _, _, hm, hnext, himage⟩

/-- The version a handle says is on disk changes with the first commit that succeeds. -/
theorem versions (h : Trace ks ops cs ks') : ks'.openedVersion = ks.openedVersion ∧
    ((∃ c ∈ cs, c.reply = .ok ()) ∧ ks'.onDiskVersion = version ∨
      (∀ c ∈ cs, c.reply ≠ .ok ()) ∧ ks'.onDiskVersion = ks.onDiskVersion) := by
  induction h with
  | done => exact ⟨rfl, .inr ⟨nofun, rfl⟩⟩
  | nothing _ ih => exact ih
  | @image ks ks' op ops cs p p' c _ _ _ _ _ ih =>
    obtain ⟨hopened, hdisk⟩ := ih
    refine ⟨hopened.trans (after_openedVersion ..), ?_⟩
    rcases hdisk with ⟨⟨d, hd, hreply⟩, hdisk⟩ | ⟨hnone, hdisk⟩
    · exact .inl ⟨⟨d, List.mem_cons_of_mem _ hd, hreply⟩, hdisk⟩
    rcases hreply : c.reply with ⟨⟩ | e | _
    · exact .inl ⟨⟨c, List.mem_cons_self, hreply⟩, by rw [hdisk, hreply]; rfl⟩
    all_goals
      refine .inr ⟨fun d hd => ?_, by rw [hdisk, hreply]; rfl⟩
      rcases List.mem_cons.mp hd with rfl | hd
      · rw [hreply]
        exact nofun
      · exact hnone d hd
  | @killed ks op ops p p' c _ _ _ hkilled =>
    refine ⟨rfl, .inr ⟨fun d hd => ?_, rfl⟩⟩
    rw [List.mem_singleton.mp hd, hkilled]
    exact nofun

theorem upgradedFrom_iff (h : Trace ks ops cs ks') {v : UInt16} (hopened : ks.openedVersion = v)
    (hdisk : ks.onDiskVersion = v) (hv : v ≠ version) :
    ks'.upgradedFrom = some v ↔ ∃ c ∈ cs, c.reply = .ok () := by
  obtain ⟨hopened', hcases⟩ := h.versions
  rw [upgradedFrom, hopened', hopened]
  rcases hcases with ⟨hsome, hdisk'⟩ | ⟨hnone, hdisk'⟩
  · rw [hdisk', if_pos hv]
    exact iff_of_true rfl hsome
  · rw [hdisk', hdisk, if_neg (not_not.mpr rfl)]
    exact iff_of_false nofun fun ⟨c, hc, hreply⟩ => hnone c hc hreply

end Trace

/-! ## Handles of an image -/

/-- A call to open returned the handle, from this image. -/
inductive OpenedFrom (ks : Keystore) (image : Bytes) : Prop where
  | snapshot {answers : Answers} {unlock : Unlock} {m m' : UnixMedium}
      (h : openWith answers unlock m = (.ok ks, m')) (himage : m.disk.snapshot = some image)
  | slot {answers : Answers} {unlock : Unlock} {m m' : SlotMedium} {i : Fin 2} {c : Content}
      (h : openSlots answers unlock m = (.ok ks, m')) (hnewest : m'.newest = some i)
      (hsort : sort (m.cells i).now = .ok c) (himage : c.stands = some image)

/-- The handle holds what the image reads as, and has its version as the one on disk. -/
structure Holds (ks : Keystore) (image : Bytes) (p : Parsed) (v : UInt16) : Prop where
  memory : ks.memory = some p
  reads : ReadsAs image ks.crypto.key v p
  opened : ks.openedVersion = v
  onDisk : ks.onDiskVersion = v

theorem holds_of_unlock {unlock : Unlock} {image : Bytes} {ks : Keystore}
    (h : unlockImage unlock image = .ok ks) : ∃ p v, Holds ks image p v := by
  obtain ⟨f, hread, h⟩ := bind_eq_ok.mp h
  obtain ⟨key, -, h⟩ := bind_eq_ok.mp h
  obtain ⟨p, hparse, h⟩ := bind_eq_ok.mp h
  cases h
  exact ⟨p, f.version, rfl, ⟨f, hread, rfl, hparse⟩, rfl, rfl⟩

/-- Slot 1 is sorted as any slot is, unless it is too long to stand for anything. -/
theorem sort_of_sortSlot1 {x : Option Bytes} {c : Content} {image : Bytes}
    (h : sortSlot1 x = .ok c) (hc : c.stands = some image) : sort x = .ok c := by
  unfold sortSlot1 at h
  split at h
  · exact h
  split at h
  · next hread =>
    unfold readSlot at hread
    split at hread <;> cases hread
    exact h
  · cases h
    cases hc

theorem OpenedFrom.holds {ks : Keystore} {image : Bytes} (h : OpenedFrom ks image) :
    ∃ p v, Holds ks image p v := by
  cases h with
  | snapshot h himage =>
    rcases (openWith_cases h).2 with ⟨e, hr⟩ | ⟨ks', image', hr, himage', hunlock⟩
    · cases hr
    cases hr
    rw [himage] at himage'
    cases himage'
    exact holds_of_unlock hunlock
  | @slot _ _ m _ i c h hnewest hsort himage =>
    obtain ⟨bytes, slot0, slot1, taken, hnow, hsort0, hsort1, htake, rfl, -, hnewest'⟩ :=
      openSlots_ok h
    rw [hnewest] at hnewest'
    cases hnewest'
    obtain ⟨image', hstands, hreads⟩ := take_ok htake
    have hsame : sort (m.cells taken.newest).now =
        .ok (if taken.newest = 0 then slot0 else slot1) := by
      rcases fin2_cases taken.newest with hi | hi
      · rw [hi, hnow, hsort0]
        rfl
      · rw [hi] at hstands ⊢
        exact sort_of_sortSlot1 hsort1 hstands
    rw [hsort] at hsame
    cases hsame
    rw [himage] at hstands
    cases hstands
    exact ⟨taken.parsed, taken.version, rfl, hreads, rfl, rfl⟩

/-- A version-3 image, migrated in place: it says nothing of figures or settled blocks; opening it
leaves the files as they read, but for a stale temporary file; the first image the handle commits is
of version 4, of the same state with one operation's change; and the handle says that it upgraded
the store exactly when a commit of its own has succeeded. -/
theorem migration_in_place (hl : Crypto.Lawful) {image : Bytes} {f : Framed}
    (hread : readHeader image = .ok f) (hv : f.version = v3Version) :
    (∀ key p, parseWithKey image key = .ok p → p.Unfigured) ∧
    (∀ answers unlock m m' r, openWith answers unlock m = (r, m') →
      m'.disk = m.disk ∨ m'.disk = { m.disk with temp := none }) ∧
    (∀ answers unlock m m' r i, openSlots answers unlock m = (r, m') →
      (m'.cells i).now = (m.cells i).now) ∧
    ∀ ks, OpenedFrom ks image →
      ∃ p, ks.memory = some p ∧ parseWithKey image ks.crypto.key = .ok p ∧
        ∀ (D : Type) [Layout D] (m : D) (ops : List Op),
          (∀ c cs, commitsOf ks m ops = c :: cs → ∃ op ∈ ops, Migrated ks.crypto p op c.image) ∧
          ((Op.calls ops ⟨ks, m⟩).ks.upgradedFrom = some v3Version ↔
            ∃ c ∈ commitsOf ks m ops, c.reply = .ok ()) := by
  have hunfigured {key : Block keyLen} {p : Parsed} (hparse : parseWithKey image key = .ok p) :
      p.Unfigured := unfigured_of_parse hread hv hparse
  refine ⟨fun key p => hunfigured, fun answers unlock m m' r h => (openWith_end h).1,
    fun answers unlock m m' r i h => openSlots_now h i, fun ks hks => ?_⟩
  obtain ⟨p, v, hm, ⟨f', hread', hv', hparse⟩, hopened, hdisk⟩ := hks.holds
  rw [hread] at hread'
  cases hread'
  rw [hv] at hv'
  subst hv'
  refine ⟨p, hm, hparse, fun D _ m ops => ⟨fun c cs hcommits => ?_, ?_⟩⟩
  · have htrace := trace_commitsOf ks m ops
    rw [hcommits] at htrace
    obtain ⟨op, hop, p', q, hm', hnext, himage⟩ := htrace.first
    rw [hm] at hm'
    cases hm'
    exact ⟨op, hop, migrated_imageOf hl (wf_of_parseWithKey hparse) (hunfigured hparse) hnext himage⟩
  · have hplain : (Op.calls ops ⟨ks, m⟩ : Opened D).ks =
        (Op.calls ops (⟨ks, ⟨m, []⟩⟩ : Opened (Recorder D))).ks :=
      congrArg Opened.ks (calls_unrecorded ops (⟨ks, ⟨m, []⟩⟩ : Opened (Recorder D)))
    rw [hplain]
    exact (trace_commitsOf ks m ops).upgradedFrom_iff hopened hdisk (by decide)

end

/-! ## A version-3 store -/

section
attribute [local instance] Crypto.plain

/-- One account with its first key reserved, as version 3 records it. -/
def v3Record : Bytes :=
  (recordBytes { reservedRecord with pending := some ⟨⟨0⟩, .zero 32, none⟩ }).take v3RecordLen

def v3Image : Bytes :=
  Header.bytesAt v3Version ⟨⟨8, 1, 1⟩, .zero 16, .zero 12⟩ ++
    (bodyHeaderBytes 3 1 none ++ v3Record) ++ (Block.zero 16).1

/-- The store, beside what an interrupted commit left. -/
def v3Disk : UnixMedium := ⟨⟨some v3Image, some [], some v3Image⟩, [], []⟩

theorem readHeader_v3Image : ∃ f, readHeader v3Image = .ok f ∧ f.version = v3Version := by
  have hversion : (readHeader v3Image).toOption.map (·.version) = some v3Version := by decide +kernel
  obtain ⟨f, hf, hv⟩ := Option.map_eq_some_iff.mp hversion
  exact ⟨f, toOption_eq_some.mp hf, hv⟩

theorem readStore_v3Image : ∃ p, readStore [] v3Image = .ok p := by
  have hsome : (readStore [] v3Image).toOption.isSome := by decide +kernel
  obtain ⟨p, hp⟩ := Option.isSome_iff_exists.mp hsome
  exact ⟨p, toOption_eq_some.mp hp⟩

/-- Opening it takes the stale temporary file away. -/
theorem open_unlinks_temp :
    (∃ f p, readHeader v3Image = .ok f ∧ f.version = v3Version ∧ readStore [] v3Image = .ok p) ∧
      v3Disk.disk.snapshot = some v3Image ∧
      ∃ ks m, openWith .good ⟨[], .zero nonceSeedLen⟩ v3Disk = (.ok ks, m) ∧
        m.disk ≠ v3Disk.disk := by
  obtain ⟨f, hread, hv⟩ := readHeader_v3Image
  obtain ⟨p, hstore⟩ := readStore_v3Image
  obtain ⟨ks, hopen, -⟩ := openWith_good (m := v3Disk) (.zero nonceSeedLen) rfl hstore
  refine ⟨⟨f, p, hread, hv, hstore⟩, rfl, ks, _, hopen, fun h => ?_⟩
  cases congrArg Disk.temp h

/-- The reservation of its account, settled. -/
def settling : Op := .persistSettled (.zero addrTagLen)

theorem upgraded_settling {ks : Keystore} (h : unlockImage ⟨[], .zero nonceSeedLen⟩ v3Image = .ok ks) :
    (Op.calls [settling] ⟨ks, v3Disk⟩).ks.upgradedFrom = some v3Version := by
  have hall : (unlockImage ⟨[], .zero nonceSeedLen⟩ v3Image).toOption.all (fun ks =>
      (Op.calls [settling] ⟨ks, v3Disk⟩).ks.upgradedFrom = some v3Version) = true := by decide +kernel
  rw [h] at hall
  exact of_decide_eq_true hall

/-- Settling it is the first commit, and crosses to version 4. -/
theorem migration_in_place_v3Image : ∃ ks p c cs, OpenedFrom ks v3Image ∧ ks.memory = some p ∧
    p.Unfigured ∧ commitsOf ks v3Disk [settling] = c :: cs ∧ Migrated ks.crypto p settling c.image ∧
    ∃ c ∈ commitsOf ks v3Disk [settling], c.reply = .ok () := by
  obtain ⟨f, hread, hv⟩ := readHeader_v3Image
  obtain ⟨p, hstore⟩ := readStore_v3Image
  obtain ⟨ks, hopen, -⟩ := openWith_good (m := v3Disk) (.zero nonceSeedLen) rfl hstore
  obtain ⟨hunfigured, -, -, hmigrates⟩ := migration_in_place Crypto.plain_lawful hread hv
  have hks : OpenedFrom ks v3Image := .snapshot hopen rfl
  obtain ⟨p, hm, hparse, hruns⟩ := hmigrates ks hks
  obtain ⟨hfirst, hupgraded⟩ := hruns UnixMedium v3Disk [settling]
  rcases (openWith_cases hopen).2 with ⟨e, hr⟩ | ⟨ks', image, hr, himage, hunlock⟩
  · cases hr
  cases hr
  cases himage
  obtain ⟨d, hd, hreply⟩ := hupgraded.mp (upgraded_settling hunlock)
  obtain ⟨c, cs, hcommits⟩ := List.exists_cons_of_ne_nil (List.ne_nil_of_mem hd)
  obtain ⟨op, hop, hmigrated⟩ := hfirst c cs hcommits
  rw [List.mem_singleton.mp hop] at hmigrated
  exact ⟨ks, p, c, cs, hks, hm, hunfigured _ p hparse, hcommits, hmigrated, d, hd, hreply⟩

end

end MochimoWallet.Keystore

import MochimoWallet.Keystore.Medium
import MochimoWallet.Keystore.Writes

/-!
# Creating and opening a store

Both calls pass through operating-system answers that are no part of the store: the
directory and its permissions, the lock, the reads. `Answers` holds one outcome for
each, so that a run can take any of them. What the calls read and leave of the
directory is theirs: `create` refuses a directory that has a snapshot and commits an
empty store; `open` unlinks a stale temporary file, reads the snapshot, derives the
key from its header and parses it, and writes nothing.
-/

namespace MochimoWallet.Keystore

open Codec

/-- The operating system's answers to the calls that only succeed or refuse. -/
structure Answers where
  /-- Opening the directory: absent, a link, unsafe permissions. -/
  directory : Except Error Unit
  stat : Except Error Unit
  /-- Taking the lock: held by another handle, or refused. -/
  lock : Except Error Unit
  removeTemp : Except Error Unit
  openSnapshot : Except Error Unit
  /-- Reading the snapshot, refused too when the file grows under the read. -/
  read : Except Error Unit

/-- Nothing refused. -/
def Answers.good : Answers := ⟨.ok (), .ok (), .ok (), .ok (), .ok (), .ok ()⟩

/-- What a caller supplies to create a store. -/
structure Init where
  password : Bytes
  salt : Block saltLen
  nonceSeed : Block nonceSeedLen
  kdf : Kdf

/-- What a caller supplies to open one. -/
structure Unlock where
  password : Bytes
  nonceSeed : Block nonceSeedLen

variable [Crypto]

/-- Refuse a directory that already holds a snapshot. -/
def refuseOccupied (answers : Answers) (disk : Disk) : Except Error Unit := do
  answers.stat
  if disk.snapshot.isSome then .error (.exists "snapshot")
  else .ok ()

/-- The handle `create` commits its first image with. -/
def fresh (init : Init) (kdf : Kdf) (key : Block keyLen) : Keystore :=
  ⟨.live 0 .empty, none, ⟨key, kdf, init.salt, init.nonceSeed⟩, version, version⟩

def createWith (answers : Answers) (init : Init) : Call UnixMedium Error Keystore := do
  Call.check answers.directory
  let m ← Call.get
  Call.check (refuseOccupied answers m.disk)
  Call.check answers.lock
  -- Asked again under the lock, where the answer decides.
  Call.check (refuseOccupied answers m.disk)
  let kdf ← Call.check init.kdf.checked
  let key ← Call.check (deriveKey init.password init.salt kdf)
  let ks := fresh init kdf key
  let image ← Call.check (ks.sealImage [] 0)
  fsyncParent
  fun m =>
    match commit image ⟨ks, m⟩ with
    | (.ok _, s) => (.ok s.ks, s.medium)
    | (.err e, s) => (.err e, s.medium)
    | (.killed, s) => (.killed, s.medium)

/-- The handle of an image, under a password. -/
def unlockImage (unlock : Unlock) (image : Bytes) : Except Error Keystore := do
  let framed ← readHeader image
  let key ← deriveKey unlock.password framed.header.salt framed.header.kdf
  let parsed ← parseWithKey image key
  .ok ⟨.live parsed.generation parsed.slots, parsed.master,
    ⟨key, framed.header.kdf, framed.header.salt, unlock.nonceSeed⟩, framed.version, framed.version⟩

def openWith (answers : Answers) (unlock : Unlock) : Call UnixMedium Error Keystore := do
  Call.check answers.directory
  Call.check answers.stat
  let m ← Call.get
  if m.disk.snapshot.isNone then Call.refuse .missing
  else
  Call.check answers.lock
  Call.check answers.removeTemp
  Call.modify fun m => { m with disk := { m.disk with temp := none } }
  Call.check answers.openSnapshot
  match m.disk.snapshot with
  | none => Call.refuse .missing
  | some image =>
  if image.length > maxImageLen then
    Call.refuse (.range "keystore image length" minImageLen maxImageLen image.length)
  else
  Call.check answers.read
  Call.check (unlockImage unlock image)

/-! ## What an image says under a password -/

/-- The state an image holds, for whoever has the password. -/
def readStore (password : Bytes) (image : Bytes) : Except Error Parsed := do
  let framed ← readHeader image
  let key ← deriveKey password framed.header.salt framed.header.kdf
  parseWithKey image key

/-- A handle's crypto is what the password derives, so what it seals the password opens. -/
def StoreCrypto.Under (password : Bytes) (crypto : StoreCrypto) : Prop :=
  deriveKey password crypto.salt crypto.kdf = .ok crypto.key

theorem readStore_imageOf (hl : Crypto.Lawful) {password : Bytes} {crypto : StoreCrypto}
    (hc : crypto.Under password) {p : Parsed} {image : Bytes}
    (htags : ∀ {tag slot}, p.slots.get? tag = some slot → slot.account.tag = tag)
    (h : imageOf crypto p = .ok image) : readStore password image = .ok p := by
  obtain ⟨f, hread, -, hkdf, hsalt, -, hparse⟩ := parse_imageOf hl htags h
  rw [readStore, hread, ok_bind, hkdf, hsalt, hc, ok_bind, hparse]

theorem wf_of_readStore {password image : Bytes} {p : Parsed}
    (h : readStore password image = .ok p) : p.Wf := by
  obtain ⟨f, -, h⟩ := bind_eq_ok.mp h
  obtain ⟨key, -, h⟩ := bind_eq_ok.mp h
  exact wf_of_parseWithKey h

theorem unlockImage_ok {unlock : Unlock} {image : Bytes} {ks : Keystore}
    (h : unlockImage unlock image = .ok ks) :
    ∃ p, ks.memory = some p ∧ readStore unlock.password image = .ok p ∧
      ks.crypto.Under unlock.password := by
  obtain ⟨f, hf, h⟩ := bind_eq_ok.mp h
  obtain ⟨key, hkey, h⟩ := bind_eq_ok.mp h
  obtain ⟨p, hp, h⟩ := bind_eq_ok.mp h
  cases h
  exact ⟨p, rfl, by rw [readStore, hf, ok_bind, hkey, ok_bind, hp], hkey⟩

theorem length_of_readStore {password image : Bytes} {p : Parsed}
    (h : readStore password image = .ok p) : image.length ≤ maxImageLen := by
  obtain ⟨f, h, -⟩ := bind_eq_ok.mp h
  unfold readHeader at h
  split at h
  · cases h
  · omega

theorem unlockImage_of_readStore {password image : Bytes} {p : Parsed} (nonceSeed : Block nonceSeedLen)
    (h : readStore password image = .ok p) :
    ∃ ks, unlockImage ⟨password, nonceSeed⟩ image = .ok ks ∧ ks.memory = some p := by
  obtain ⟨f, hf, h⟩ := bind_eq_ok.mp h
  obtain ⟨key, hkey, h⟩ := bind_eq_ok.mp h
  exact ⟨⟨.live p.generation p.slots, p.master, ⟨key, f.header.kdf, f.header.salt, nonceSeed⟩,
    f.version, f.version⟩, by rw [unlockImage, hf, ok_bind, hkey, ok_bind, h, ok_bind], rfl⟩

/-! ## What the calls leave -/

/-- With nothing refused, open returns what its entry reads as. -/
theorem openWith_good {password image : Bytes} {p : Parsed} {m : UnixMedium}
    (nonceSeed : Block nonceSeedLen) (himage : m.disk.snapshot = some image)
    (hread : readStore password image = .ok p) :
    ∃ ks, openWith .good ⟨password, nonceSeed⟩ m =
      (.ok ks, { m with disk := { m.disk with temp := none } }) ∧ ks.memory = some p := by
  obtain ⟨ks, hunlock, hm⟩ := unlockImage_of_readStore nonceSeed hread
  have hlen := length_of_readStore hread
  refine ⟨ks, ?_, hm⟩
  simp only [openWith, Answers.good, Call.check_ok, Call.pure_bind, Call.get_bind, himage,
    Option.isNone_some, Bool.false_eq_true, if_false, Call.modify_bind, gt_iff_lt,
    if_neg (not_lt.mpr hlen), hunlock, Call.pure_apply]

/-- What a call to open leaves: the directory as it was but for a stale temporary file, and the
handle of the snapshot if it returned one. -/
theorem openWith_end {answers : Answers} {unlock : Unlock} {m m' : UnixMedium}
    {r : Reply Error Keystore} (h : openWith answers unlock m = (r, m')) :
    (m'.disk = m.disk ∨ m'.disk = { m.disk with temp := none }) ∧
      ((∃ e, r = .err e) ∨ ∃ ks image, r = .ok ks ∧ m.disk.snapshot = some image ∧
        unlockImage unlock image = .ok ks) := by
  unfold openWith at h
  rcases Call.check_bind_cases h with ⟨e, -, rfl, rfl⟩ | ⟨-, -, h⟩
  · exact ⟨.inl rfl, .inl ⟨e, rfl⟩⟩
  rcases Call.check_bind_cases h with ⟨e, -, rfl, rfl⟩ | ⟨-, -, h⟩
  · exact ⟨.inl rfl, .inl ⟨e, rfl⟩⟩
  rw [Call.get_bind] at h
  split at h
  · cases h; exact ⟨.inl rfl, .inl ⟨_, rfl⟩⟩
  rcases Call.check_bind_cases h with ⟨e, -, rfl, rfl⟩ | ⟨-, -, h⟩
  · exact ⟨.inl rfl, .inl ⟨e, rfl⟩⟩
  rcases Call.check_bind_cases h with ⟨e, -, rfl, rfl⟩ | ⟨-, -, h⟩
  · exact ⟨.inl rfl, .inl ⟨e, rfl⟩⟩
  rw [Call.modify_bind] at h
  rcases Call.check_bind_cases h with ⟨e, -, rfl, rfl⟩ | ⟨-, -, h⟩
  · exact ⟨.inr rfl, .inl ⟨e, rfl⟩⟩
  rcases himage : m.disk.snapshot with _ | image <;> rw [himage] at h
  · cases h; exact ⟨.inr rfl, .inl ⟨_, rfl⟩⟩
  dsimp only at h
  split at h
  · cases h; exact ⟨.inr rfl, .inl ⟨_, rfl⟩⟩
  rcases Call.check_bind_cases h with ⟨e, -, rfl, rfl⟩ | ⟨-, -, h⟩
  · exact ⟨.inr rfl, .inl ⟨e, rfl⟩⟩
  rcases hunlock : unlockImage unlock image with e | ks <;> rw [hunlock] at h <;> cases h
  · exact ⟨.inr rfl, .inl ⟨e, rfl⟩⟩
  · exact ⟨.inr rfl, .inr ⟨ks, image, rfl, rfl, hunlock⟩⟩

theorem openWith_cases {answers : Answers} {unlock : Unlock} {m m' : UnixMedium}
    {r : Reply Error Keystore} (h : openWith answers unlock m = (r, m')) :
    (m'.disk.snapshot = m.disk.snapshot ∧ m'.disk.durable = m.disk.durable) ∧
      ((∃ e, r = .err e) ∨ ∃ ks image, r = .ok ks ∧ m.disk.snapshot = some image ∧
        unlockImage unlock image = .ok ks) := by
  obtain ⟨hdisk, hend⟩ := openWith_end h
  refine ⟨?_, hend⟩
  rcases hdisk with hdisk | hdisk <;> rw [hdisk] <;> exact ⟨rfl, rfl⟩

/-- The state a created store holds. -/
def emptyStore : Parsed := ⟨0, .empty, none⟩

theorem createWith_cases {answers : Answers} {init : Init} {m m' : UnixMedium}
    {r : Reply Error Keystore} (h : createWith answers init m = (r, m')) :
    (((∃ e, r = .err e) ∨ r = .killed) ∧ m'.disk = m.disk) ∨
    ∃ (crypto : StoreCrypto) (image : Bytes), m.disk.snapshot = none ∧
      crypto.Under init.password ∧ imageOf crypto emptyStore = .ok image ∧
      ((∃ ks, r = .ok ks ∧ ks.memory = some emptyStore ∧ ks.crypto = crypto ∧
          m'.disk = ⟨some image, none, some image⟩) ∨
        ((∃ e, r = .err e) ∨ r = .killed) ∧ LeftBy image m.disk m'.disk) := by
  unfold createWith at h
  rcases Call.check_bind_cases h with ⟨e, -, rfl, rfl⟩ | ⟨-, -, h⟩
  · exact .inl ⟨.inl ⟨e, rfl⟩, rfl⟩
  rw [Call.get_bind] at h
  rcases Call.check_bind_cases h with ⟨e, -, rfl, rfl⟩ | ⟨_, hfree, h⟩
  · exact .inl ⟨.inl ⟨e, rfl⟩, rfl⟩
  have hnone : m.disk.snapshot = none := by
    obtain ⟨-, -, hfree⟩ := bind_eq_ok.mp hfree
    split at hfree
    · cases hfree
    · next hsome => simpa using hsome
  rcases Call.check_bind_cases h with ⟨e, -, rfl, rfl⟩ | ⟨-, -, h⟩
  · exact .inl ⟨.inl ⟨e, rfl⟩, rfl⟩
  rcases Call.check_bind_cases h with ⟨e, -, rfl, rfl⟩ | ⟨-, -, h⟩
  · exact .inl ⟨.inl ⟨e, rfl⟩, rfl⟩
  rcases Call.check_bind_cases h with ⟨e, -, rfl, rfl⟩ | ⟨kdf, -, h⟩
  · exact .inl ⟨.inl ⟨e, rfl⟩, rfl⟩
  rcases Call.check_bind_cases h with ⟨e, -, rfl, rfl⟩ | ⟨key, hkey, h⟩
  · exact .inl ⟨.inl ⟨e, rfl⟩, rfl⟩
  rcases Call.check_bind_cases h with ⟨e, -, rfl, rfl⟩ | ⟨image, himage, h⟩
  · exact .inl ⟨.inl ⟨e, rfl⟩, rfl⟩
  rcases short_or_next h with ⟨-, u, hu, h⟩ | ⟨hr, hm⟩
  · have hu : u.disk = m.disk := hu
    refine .inr ⟨⟨key, kdf, init.salt, init.nonceSeed⟩, image, hnone, hkey, himage, ?_⟩
    rw [commit] at h
    rcases hsteps : Layout.steps image u with ⟨r', m''⟩
    rcases steps_cases hsteps with ⟨rfl, hdisk⟩ | ⟨⟨e, rfl⟩ | rfl, hleft⟩ <;>
      rw [hsteps] at h <;> cases h
    · exact .inl ⟨_, rfl, rfl, rfl, hdisk⟩
    · exact .inr ⟨.inl ⟨e, rfl⟩, hu ▸ hleft⟩
    · exact .inr ⟨.inr rfl, hu ▸ hleft⟩
  · have hm : m'.disk = m.disk := by rcases hm with hm | ⟨left, hm⟩ <;> exact hm
    exact .inl ⟨hr, hm⟩

end MochimoWallet.Keystore

import MochimoWallet.Keystore.Open
import MochimoWallet.Lib.TwoCopies

/-!
# Slot frames

On Windows the store is two files, each rewritten in place and each holding one frame
around one image. A frame's check is keyless: it sorts what a write finished from what
a write left (`sort`) before any key exists. `take` is what `open` makes of the two:
the image of the higher generation, an image that stands whole in slot 0 as the rename
layout left it, or a refusal. `take_eq` says which, for every pair of contents that
the slots of one store can hold.
-/

namespace MochimoWallet.Keystore

open Codec

/-- `MCMKSLOT`. -/
def slotMagic : Block 8 := ⟨[0x4D, 0x43, 0x4D, 0x4B, 0x53, 0x4C, 0x4F, 0x54], rfl⟩

abbrev frameVersion : UInt16 := 1
/-- The magic, the version and the payload's length. -/
abbrev headLen : ℕ := 8 + 2 + 4
abbrev checkLen : ℕ := 32
/-- What a frame adds to its payload. -/
abbrev overhead : ℕ := headLen + checkLen
abbrev maxFrameLen : ℕ := overhead + maxImageLen

/-- What one slot file holds, as `open` sorts it before any key exists. -/
inductive Content where
  | absent
  /-- An intact frame around nothing. -/
  | vacant
  | image (image : Bytes)
  /-- A frame whose length or check does not hold. -/
  | torn
  /-- Bytes that do not begin as a frame does. -/
  | other (whole : Bytes)

namespace Content

def image? : Content → Option Bytes
  | .image b => some b
  | _ => none

def isFramed : Content → Bool
  | .vacant | .image _ | .torn => true
  | _ => false

def isAbsent : Content → Bool
  | .absent => true
  | _ => false

end Content

/-! ## One slot -/

/-- A frame up to its check. -/
def frameBody (image : Bytes) : Bytes :=
  slotMagic.1 ++ (u16le frameVersion).1 ++ (u32le (.ofNat image.length)).1 ++ image

/-- A slot file up to its check: the magic, a version, a declared length and a payload. -/
def slotBody (v : UInt16) (declared : UInt32) (payload : Bytes) : Bytes :=
  slotMagic.1 ++ (u16le v).1 ++ (u32le declared).1 ++ payload

theorem length_slotBody (v : UInt16) (declared : UInt32) (payload : Bytes) :
    (slotBody v declared payload).length = headLen + payload.length := by
  simp only [slotBody, List.length_append, Block.length_eq, headLen]

theorem slotBody_fields (v : UInt16) (declared : UInt32) (payload : Bytes) :
    (slotBody v declared payload).drop headLen = payload ∧
      ((slotBody v declared payload).drop 8).take 2 = (u16le v).1 ∧
      ((slotBody v declared payload).drop 10).take 4 = (u32le declared).1 := by
  have hhead : (slotMagic.1 ++ (u16le v).1).length = 10 := by simp [Block.length_eq]
  refine ⟨?_, ?_, ?_⟩
  · rw [slotBody]
    exact List.drop_left' (by simp [Block.length_eq])
  · rw [slotBody, List.append_assoc, List.append_assoc, List.drop_left' slotMagic.2]
    exact List.take_left' (u16le v).2
  · rw [slotBody, List.append_assoc _ _ payload, List.drop_left' hhead]
    exact List.take_left' (u32le _).2

variable [Crypto]

/-- The frame around `image`, or around nothing: the vacant frame. -/
def frame (image : Bytes) : Except Error Bytes :=
  if image.length < 2 ^ 32 ∧ image.length ≤ maxImageLen then
    .ok (frameBody image ++ (Crypto.sha3_256 (frameBody image)).1)
  else .error (.range "keystore slot payload length" 0 maxImageLen image.length)

/-- Sort a slot file's bytes, `none` when the file does not exist. -/
def sort : Option Bytes → Except Error Content
  | none => .ok .absent
  | some bytes =>
    if bytes.take 8 ≠ slotMagic.1 then .ok (.other bytes)
    else if bytes.length > maxFrameLen then .ok .torn
    else if bytes.length < headLen + checkLen then .ok .torn
    else
    let body := bytes.take (bytes.length - checkLen)
    let check := bytes.drop (bytes.length - checkLen)
    let payload := body.drop headLen
    let declared := ofLe ((body.drop 10).take 4)
    if declared ≠ payload.length then .ok .torn
    else if (Crypto.sha3_256 body).1 ≠ check then .ok .torn
    else if ofLe ((body.drop 8).take 2) ≠ frameVersion.toNat then
      .error (.corrupt
        "a slot frame of a version this build does not read, which a newer build wrote" 8)
    else if payload = [] then .ok .vacant
    else .ok (.image payload)

/-! ## Two slots -/

/-- An image one of the slots holds, read. -/
structure Candidate where
  slot : Fin 2
  version : UInt16
  parsed : Parsed

/-- What `open` takes. -/
structure Taken where
  newest : Fin 2
  version : UInt16
  parsed : Parsed
  key : Block keyLen
  kdf : Kdf
  salt : Block saltLen

/-- Slot 0 read as the rename layout reads a snapshot. -/
def readWhole (whole password : Bytes) : Except Error Taken := do
  let framed ← readHeader whole
  let key ← deriveKey password framed.header.salt framed.header.kdf
  let parsed ← parseWithKey whole key
  .ok ⟨0, framed.version, parsed, key, framed.header.kdf, framed.header.salt⟩

/-- The images of the intact frames, with their slots. -/
def intact (slot0 slot1 : Content) : List (Fin 2 × Bytes) :=
  (slot0.image?.map ((0 : Fin 2), ·)).toList ++ (slot1.image?.map ((1 : Fin 2), ·)).toList

/-- Refuse two images that do not share the salt and the key derivation. -/
def agree (kdf : Kdf) (salt : Block saltLen) : List (Fin 2 × Bytes) → Except Error Unit
  | [] => .ok ()
  | (_, image) :: images => do
    let other ← readHeader image
    if other.header.kdf ≠ kdf ∨ other.header.salt ≠ salt then
      .error (.corrupt "the two slots disagree on the salt or the key derivation" 0)
    else agree kdf salt images

/-- The images of intact frames, each of which has to read. -/
def candidates (key : Block keyLen) : List (Fin 2 × Bytes) → Except Error (List Candidate)
  | [] => .ok []
  | (slot, image) :: images => do
    let framed ← readHeader image
    let parsed ← parseWithKey image key
    let rest ← candidates key images
    .ok (⟨slot, framed.version, parsed⟩ :: rest)

/-- A slot 0 that is not a frame: the older image if it reads, and nothing if it does not. -/
def standingWhole (kdf : Kdf) (salt : Block saltLen) (key : Block keyLen) :
    Content → List Candidate
  | .other whole =>
    match readHeader whole with
    | .ok framed =>
      if framed.header.kdf = kdf ∧ framed.header.salt = salt then
        match parseWithKey whole key with
        | .ok parsed => [⟨0, framed.version, parsed⟩]
        | .error _ => []
      else []
    | .error _ => []
  | _ => []

/-- The candidate of the highest generation; two of one generation are refused. -/
def newestOf : Option Candidate → List Candidate → Except Error (Option Candidate)
  | held, [] => .ok held
  | none, c :: cs => newestOf (some c) cs
  | some held, c :: cs =>
    if held.parsed.generation = c.parsed.generation then
      .error (.corrupt "both slots hold one generation" 0)
    else if held.parsed.generation > c.parsed.generation then newestOf (some held) cs
    else newestOf (some c) cs

/-- The newest image the two slots hold. -/
def take (slot0 slot1 : Content) (password : Bytes) : Except Error Taken :=
  if slot0.isFramed && slot1.isAbsent then
    .error (.corrupt "slot 0 holds a frame and slot 1 is missing" 0)
  else
  match slot1.image?.or slot0.image? with
  | none =>
    match slot0 with
    | .other whole => readWhole whole password
    | _ => .error (.corrupt "neither slot holds an intact image" 0)
  | some first => do
    let framed ← readHeader first
    let (kdf, salt) := (framed.header.kdf, framed.header.salt)
    agree kdf salt (intact slot0 slot1)
    let key ← deriveKey password salt kdf
    let found ← candidates key (intact slot0 slot1)
    let newest ← newestOf none (found ++ standingWhole kdf salt key slot0)
    match newest with
    | some c => .ok ⟨c.slot, c.version, c.parsed, key, kdf, salt⟩
    | none => .error (.corrupt "neither slot holds an intact image" 0)

/-! ## What is taken was read -/

/-- The image a slot's content stands for, framed or whole. -/
def Content.stands : Content → Option Bytes
  | .image b => some b
  | .other b => some b
  | _ => none

/-- The image reads, under this key, as the state of a version. -/
def ReadsAs (image : Bytes) (key : Block keyLen) (v : UInt16) (p : Parsed) : Prop :=
  ∃ f, readHeader image = .ok f ∧ f.version = v ∧ parseWithKey image key = .ok p

theorem newestOf_mem {held : Option Candidate} {cs : List Candidate} {c : Candidate}
    (h : newestOf held cs = .ok (some c)) : held = some c ∨ c ∈ cs := by
  induction cs generalizing held with
  | nil =>
    cases h
    exact .inl rfl
  | cons d cs ih =>
    have hnext (h : newestOf (some d) cs = .ok (some c)) : held = some c ∨ c ∈ d :: cs := by
      rcases ih h with hd | hc
      · cases hd
        exact .inr List.mem_cons_self
      · exact .inr (List.mem_cons_of_mem _ hc)
    rcases held with _ | held
    · exact hnext h
    · simp only [newestOf] at h
      split at h
      · cases h
      split at h
      · exact (ih h).imp_right (List.mem_cons_of_mem _)
      · exact hnext h

theorem candidates_mem {key : Block keyLen} {images : List (Fin 2 × Bytes)}
    {found : List Candidate} {c : Candidate} (h : candidates key images = .ok found)
    (hc : c ∈ found) :
    ∃ image, (c.slot, image) ∈ images ∧ ReadsAs image key c.version c.parsed := by
  induction images generalizing found with
  | nil =>
    cases h
    cases hc
  | cons e images ih =>
    obtain ⟨f, hread, h⟩ := bind_eq_ok.mp h
    obtain ⟨p, hparse, h⟩ := bind_eq_ok.mp h
    obtain ⟨rest, hrest, h⟩ := bind_eq_ok.mp h
    cases h
    rcases List.mem_cons.mp hc with rfl | hc
    · exact ⟨e.2, List.mem_cons_self, f, hread, rfl, hparse⟩
    · obtain ⟨image, hmem, hreads⟩ := ih hrest hc
      exact ⟨image, List.mem_cons_of_mem _ hmem, hreads⟩

theorem standingWhole_mem {kdf : Kdf} {salt : Block saltLen} {key : Block keyLen} {slot0 : Content}
    {c : Candidate} (hc : c ∈ standingWhole kdf salt key slot0) :
    c.slot = 0 ∧ ∃ image, slot0.stands = some image ∧ ReadsAs image key c.version c.parsed := by
  unfold standingWhole at hc
  split at hc
  · next whole =>
    split at hc
    · next f hread =>
      split at hc
      · split at hc
        · next p hparse =>
          cases List.mem_singleton.mp hc
          exact ⟨rfl, whole, rfl, f, hread, rfl, hparse⟩
        · cases hc
      · cases hc
    · cases hc
  · cases hc

omit [Crypto] in
theorem stands_of_image? {c : Content} {image : Bytes} (h : c.image? = some image) :
    c.stands = some image := by
  cases c <;> cases h
  rfl

omit [Crypto] in
theorem intact_mem {slot0 slot1 : Content} {i : Fin 2} {image : Bytes}
    (h : (i, image) ∈ intact slot0 slot1) :
    (if i = 0 then slot0 else slot1).stands = some image := by
  simp only [intact, List.mem_append, Option.mem_toList, Option.map_eq_some_iff, Prod.mk.injEq] at h
  rcases h with ⟨b, hb, rfl, rfl⟩ | ⟨b, hb, rfl, rfl⟩
  · exact stands_of_image? hb
  · exact stands_of_image? hb

/-- What is taken is what the image of its slot reads as. -/
theorem take_ok {slot0 slot1 : Content} {password : Bytes} {taken : Taken}
    (h : take slot0 slot1 password = .ok taken) :
    ∃ image, (if taken.newest = 0 then slot0 else slot1).stands = some image ∧
      ReadsAs image taken.key taken.version taken.parsed := by
  unfold take at h
  split at h
  · cases h
  split at h
  · split at h
    · next whole _ _ =>
      obtain ⟨f, hread, h⟩ := bind_eq_ok.mp h
      obtain ⟨key, -, h⟩ := bind_eq_ok.mp h
      obtain ⟨p, hparse, h⟩ := bind_eq_ok.mp h
      cases h
      exact ⟨whole, rfl, f, hread, rfl, hparse⟩
    · cases h
  · obtain ⟨f, -, h⟩ := bind_eq_ok.mp h
    obtain ⟨⟨⟩, -, h⟩ := bind_eq_ok.mp h
    obtain ⟨key, -, h⟩ := bind_eq_ok.mp h
    obtain ⟨found, hfound, h⟩ := bind_eq_ok.mp h
    obtain ⟨newest, hnewest, h⟩ := bind_eq_ok.mp h
    rcases newest with _ | c <;> cases h
    rcases newestOf_mem hnewest with hc | hc
    · cases hc
    rcases List.mem_append.mp hc with hc | hc
    · obtain ⟨image, hmem, hreads⟩ := candidates_mem hfound hc
      exact ⟨image, intact_mem hmem, hreads⟩
    · obtain ⟨hslot, image, hstands, hreads⟩ := standingWhole_mem hc
      exact ⟨image, by rw [if_pos hslot]; exact hstands, hreads⟩

/-! ## Frames sort back -/

/-- A slot file of these fields is sorted by its length, the length it declares, its check and its
version, in turn. -/
theorem sort_slotBody (v : UInt16) (declared : UInt32) (payload : Bytes) (check : Block checkLen) :
    sort (some (slotBody v declared payload ++ check.1)) =
      if payload.length > maxImageLen then .ok .torn
      else if declared.toNat ≠ payload.length then .ok .torn
      else if Crypto.sha3_256 (slotBody v declared payload) ≠ check then .ok .torn
      else if v ≠ frameVersion then .error (.corrupt
        "a slot frame of a version this build does not read, which a newer build wrote" 8)
      else if payload = [] then .ok .vacant
      else .ok (.image payload) := by
  obtain ⟨hpayload, hversion, hdeclared⟩ := slotBody_fields v declared payload
  have hlen : (slotBody v declared payload ++ check.1).length = overhead + payload.length := by
    rw [List.length_append, length_slotBody, Block.length_eq]
    show headLen + payload.length + checkLen = headLen + checkLen + payload.length
    omega
  have hbody : (slotBody v declared payload ++ check.1).length - checkLen =
      (slotBody v declared payload).length := by
    rw [List.length_append, Block.length_eq]
    exact Nat.add_sub_cancel ..
  have hmagic : (slotBody v declared payload ++ check.1).take 8 = slotMagic.1 := by
    rw [slotBody, List.append_assoc, List.append_assoc, List.append_assoc]
    exact List.take_left' slotMagic.2
  have hn : ofLe (u32le declared).1 = declared.toNat := by
    show ofLe (toLe 4 _) = _
    rw [ofLe_toLe]
    exact Nat.mod_eq_of_lt declared.toNat_lt
  have hv : ofLe (u16le v).1 = v.toNat := by
    show ofLe (toLe 2 _) = _
    rw [ofLe_toLe]
    exact Nat.mod_eq_of_lt v.toNat_lt
  have hlong : (slotBody v declared payload ++ check.1).length > maxFrameLen ↔
      payload.length > maxImageLen := by
    rw [hlen]
    show overhead + payload.length > overhead + maxImageLen ↔ _
    omega
  have hshort : ¬ (slotBody v declared payload ++ check.1).length < headLen + checkLen := by
    rw [hlen]
    show ¬ headLen + checkLen + payload.length < headLen + checkLen
    omega
  have hsum (a : Block checkLen) : a.1 ≠ check.1 ↔ a ≠ check :=
    not_congr ⟨Block.ext, congrArg Block.bytes⟩
  simp only [sort, hmagic, ne_eq, not_true_eq_false, if_false, hlong, if_neg hshort, hbody,
    List.take_left, List.drop_left, hpayload, hversion, hdeclared, hn, hv, UInt16.toNat_inj]
  simp only [← ne_eq, hsum]

/-- A frame of version `v`. -/
def frameAt (v : UInt16) (image : Bytes) : Bytes :=
  slotBody v (.ofNat image.length) image ++
    (Crypto.sha3_256 (slotBody v (.ofNat image.length) image)).1

theorem length_frameAt (v : UInt16) (image : Bytes) :
    (frameAt v image).length = overhead + image.length := by
  rw [frameAt, List.length_append, length_slotBody, Block.length_eq]
  show headLen + image.length + checkLen = headLen + checkLen + image.length
  omega

/-- An image is framed exactly where it is no longer than images are. -/
theorem frame_eq_ok {image bytes : Bytes} :
    frame image = .ok bytes ↔ image.length ≤ maxImageLen ∧ bytes = frameAt frameVersion image := by
  have hmax : maxImageLen < 2 ^ 32 := by decide
  unfold frame
  split
  · next hlen =>
    rw [Except.ok.injEq, eq_comm]
    exact ⟨fun h => ⟨hlen.2, h⟩, fun h => h.2⟩
  · next hlen =>
    exact iff_of_false (fun h => by cases h) fun h => hlen ⟨lt_of_le_of_lt h.1 hmax, h.1⟩

theorem length_frame {image bytes : Bytes} (h : frame image = .ok bytes) :
    bytes.length = overhead + image.length ∧ image.length ≤ maxImageLen := by
  obtain ⟨hmax, rfl⟩ := frame_eq_ok.mp h
  exact ⟨length_frameAt _ image, hmax⟩

/-- A frame of any version is sorted by that version and by what it is around. -/
theorem sort_frameAt (v : UInt16) {image : Bytes} (hmax : image.length ≤ maxImageLen) :
    sort (some (frameAt v image)) =
      if v ≠ frameVersion then .error (.corrupt
        "a slot frame of a version this build does not read, which a newer build wrote" 8)
      else if image = [] then .ok .vacant
      else .ok (.image image) := by
  have hsmall : image.length < 2 ^ 32 := lt_of_le_of_lt hmax (by decide)
  have hdeclared : (UInt32.ofNat image.length).toNat = image.length := by
    rw [UInt32.toNat_ofNat']
    exact Nat.mod_eq_of_lt hsmall
  rw [frameAt, sort_slotBody, if_neg (not_lt.mpr hmax), if_neg (not_not.mpr hdeclared),
    if_neg (not_not.mpr rfl)]

/-- A frame is sorted as what it was made around. -/
theorem sort_frame {image bytes : Bytes} (h : frame image = .ok bytes) :
    sort (some bytes) = .ok (if image = [] then .vacant else .image image) := by
  obtain ⟨hmax, rfl⟩ := frame_eq_ok.mp h
  rw [sort_frameAt _ hmax, if_neg (not_not.mpr rfl)]
  split <;> rfl

theorem magic_of_readHeader {image : Bytes} {f : Framed} (h : readHeader image = .ok f) :
    image.take 8 = magic.1 := by
  unfold readHeader at h
  split at h
  · cases h
  split at h
  · cases h
  obtain ⟨⟨m, c⟩, htake, h⟩ := bind_eq_ok.mp h
  dsimp only at h
  split at h
  · cases h
  next hm =>
  rw [not_not] at hm
  unfold Cursor.take at htake
  split at htake <;> cases htake
  next hle =>
  rw [← hm]
  show image.take 8 = (image.take _).take 8
  rw [List.take_take]
  congr 1
  simp only [List.length_take] at hle
  omega

/-- An image as the rename layout left it is no frame. -/
theorem sort_image {image : Bytes} {f : Framed} (h : readHeader image = .ok f) :
    sort (some image) = .ok (.other image) := by
  have hne : image.take 8 ≠ slotMagic.1 := by
    rw [magic_of_readHeader h]
    decide
  simp only [sort, if_pos hne]

/-! ## What the slots of one store hold -/

/-- What the images of one store share, under its password. -/
structure Sealing (password : Bytes) where
  kdf : Kdf
  salt : Block saltLen
  key : Block keyLen
  derived : deriveKey password salt kdf = .ok key

namespace Sealing

variable {password : Bytes} (σ : Sealing password)

/-- The image is one of the store's, of the state `p`. -/
def Opens (image : Bytes) (p : Parsed) : Prop :=
  ∃ f, readHeader image = .ok f ∧ f.header.kdf = σ.kdf ∧ f.header.salt = σ.salt ∧
    parseWithKey image σ.key = .ok p

/-- What a slot of the store can hold, with the state it holds, if any: an image, whole only in
slot 0, or what is left of a write, from which nothing decrypts. -/
inductive Reads (i : Fin 2) : Content → Option Parsed → Prop where
  | absent : Reads i .absent none
  | vacant : Reads i .vacant none
  | torn : Reads i .torn none
  | image {image : Bytes} {p : Parsed} (h : σ.Opens image p) : Reads i (.image image) (some p)
  | whole {whole : Bytes} {p : Parsed} (hi : i = 0) (h : σ.Opens whole p) :
      Reads i (.other whole) (some p)
  | remainder {left : Bytes} (h : ∀ p, readStore password left ≠ .ok p) :
      Reads i (.other left) none

end Sealing

/-- The state of the higher generation, with its slot. -/
def newer : Option Parsed → Option Parsed → Option (Fin 2 × Parsed)
  | some a, some b => if b.generation < a.generation then some (0, a) else some (1, b)
  | some a, none => some (0, a)
  | none, some b => some (1, b)
  | none, none => none

section
variable {password : Bytes} {σ : Sealing password} {image : Bytes} {p : Parsed}

theorem Sealing.Opens.readStore (h : σ.Opens image p) : readStore password image = .ok p := by
  obtain ⟨f, hread, hkdf, hsalt, hparse⟩ := h
  rw [Keystore.readStore, hread, ok_bind, hkdf, hsalt, σ.derived, ok_bind, hparse]

theorem agree_cons (h : σ.Opens image p) (i : Fin 2) (images : List (Fin 2 × Bytes)) :
    agree σ.kdf σ.salt ((i, image) :: images) = agree σ.kdf σ.salt images := by
  obtain ⟨f, hread, hkdf, hsalt, -⟩ := h
  simp only [agree, hread, ok_bind, hkdf, hsalt, ne_eq, not_true_eq_false, or_self, if_false]

theorem candidates_cons (h : σ.Opens image p) (i : Fin 2) :
    ∃ version, ∀ images, candidates σ.key ((i, image) :: images) =
      (candidates σ.key images).map (⟨i, version, p⟩ :: ·) := by
  obtain ⟨f, hread, -, -, hparse⟩ := h
  refine ⟨f.version, fun images => ?_⟩
  simp only [candidates, hread, ok_bind, hparse]
  cases candidates σ.key images <;> rfl

theorem standingWhole_whole (h : σ.Opens image p) :
    ∃ version, standingWhole σ.kdf σ.salt σ.key (.other image) = [⟨0, version, p⟩] := by
  obtain ⟨f, hread, hkdf, hsalt, hparse⟩ := h
  exact ⟨f.version, by simp only [standingWhole, hread, hkdf, hsalt, and_self, if_true, hparse]⟩

theorem standingWhole_remainder (h : ∀ p, readStore password image ≠ .ok p) :
    standingWhole σ.kdf σ.salt σ.key (.other image) = [] := by
  simp only [standingWhole]
  split
  · next f hread =>
    split
    · next hsame =>
      split
      · next p hparse =>
        exact absurd (Sealing.Opens.readStore ⟨f, hread, hsame.1, hsame.2, hparse⟩) (h p)
      · rfl
    · rfl
  · rfl

theorem readWhole_eq (h : σ.Opens image p) :
    ∃ version, readWhole image password = .ok ⟨0, version, p, σ.key, σ.kdf, σ.salt⟩ := by
  obtain ⟨f, hread, hkdf, hsalt, hparse⟩ := h
  refine ⟨f.version, ?_⟩
  rw [readWhole, hread, ok_bind, hkdf, hsalt, σ.derived, ok_bind, hparse, ok_bind]

theorem newestOf_pair {a b : Candidate} (hne : a.parsed.generation ≠ b.parsed.generation) :
    newestOf none [a, b] =
      .ok (some (if b.parsed.generation < a.parsed.generation then a else b)) := by
  simp only [newestOf, if_neg hne]
  split <;> rfl

/-- Beside an intact image, everything found is compared. -/
theorem take_intact {slot0 slot1 : Content} {first : Bytes} {found : List Candidate} {c : Candidate}
    (hbeside : ¬ (slot0.isFramed && slot1.isAbsent))
    (hfirst : slot1.image?.or slot0.image? = some first) (hopens : σ.Opens first p)
    (hagree : agree σ.kdf σ.salt (intact slot0 slot1) = .ok ())
    (hfound : candidates σ.key (intact slot0 slot1) = .ok found)
    (hnewest : newestOf none (found ++ standingWhole σ.kdf σ.salt σ.key slot0) = .ok (some c)) :
    take slot0 slot1 password = .ok ⟨c.slot, c.version, c.parsed, σ.key, σ.kdf, σ.salt⟩ := by
  obtain ⟨f, hread, hkdf, hsalt, -⟩ := hopens
  unfold take
  rw [if_neg hbeside, hfirst]
  dsimp only
  rw [hread, ok_bind, hkdf, hsalt, hagree, ok_bind, σ.derived, ok_bind, hfound, ok_bind, hnewest, ok_bind]

/-- Whatever the slots of a store hold, what is taken is the newest of it. -/
theorem take_eq {slot0 slot1 : Content} {v0 v1 : Option Parsed} {i : Fin 2}
    (h0 : σ.Reads 0 slot0 v0) (h1 : σ.Reads 1 slot1 v1)
    (hbeside : slot0.isFramed → slot1.isAbsent = false)
    (hne : ∀ a b, v0 = some a → v1 = some b → a.generation ≠ b.generation)
    (hnewer : newer v0 v1 = some (i, p)) :
    ∃ version, take slot0 slot1 password = .ok ⟨i, version, p, σ.key, σ.kdf, σ.salt⟩ := by
  have hguard : ¬ (slot0.isFramed && slot1.isAbsent) := fun h => by
    rw [Bool.and_eq_true] at h
    rw [hbeside h.1] at h
    cases h.2
  cases h1 with
  | @image b q hb =>
    obtain ⟨version, hcons⟩ := candidates_cons hb 1
    have hagree : agree σ.kdf σ.salt [(1, b)] = .ok () := agree_cons hb 1 []
    have hfound : candidates σ.key [(1, b)] = .ok [⟨1, version, q⟩] := hcons []
    cases h0 with
    | absent | vacant | torn =>
      cases hnewer
      exact ⟨version, take_intact hguard rfl hb hagree hfound rfl⟩
    | @image a q' ha =>
      obtain ⟨version', hcons'⟩ := candidates_cons ha 0
      have hfound' : candidates σ.key [(0, a), (1, b)] = .ok [⟨0, version', q'⟩, ⟨1, version, q⟩] := by
        rw [hcons', hfound]
        rfl
      have htake := take_intact hguard rfl hb ((agree_cons ha 0 _).trans hagree) hfound'
        (newestOf_pair (hne q' q rfl rfl))
      simp only [newer] at hnewer
      split at hnewer <;> cases hnewer
      · next hlt => exact ⟨version', by rw [htake, if_pos hlt]⟩
      · next hlt => exact ⟨version, by rw [htake, if_neg hlt]⟩
    | @whole a q' _ ha =>
      obtain ⟨version', hwhole⟩ := standingWhole_whole ha
      have hne' : q.generation ≠ q'.generation := (hne q' q rfl rfl).symm
      have hpair := newestOf_pair (a := ⟨1, version, q⟩) (b := ⟨0, version', q'⟩) hne'
      have htake := take_intact hguard rfl hb hagree hfound (by rw [hwhole]; exact hpair)
      simp only [newer] at hnewer
      split at hnewer <;> cases hnewer
      · next hlt => exact ⟨version', by rw [htake, if_neg (UInt64.lt_asymm hlt)]⟩
      · next hlt =>
        have hgt := UInt64.lt_of_le_of_ne (UInt64.not_lt.mp hlt) hne'.symm
        exact ⟨version, by rw [htake, if_pos hgt]⟩
    | remainder hleft =>
      cases hnewer
      exact ⟨version, take_intact hguard rfl hb hagree hfound
        (by rw [standingWhole_remainder hleft]; rfl)⟩
  | absent | vacant | torn | remainder =>
    cases h0 with
    | absent | vacant | torn | remainder => cases hnewer
    | @image a q ha =>
      cases hnewer
      obtain ⟨version, hcons⟩ := candidates_cons ha 0
      exact ⟨version, take_intact hguard rfl ha (agree_cons ha 0 []) (hcons []) rfl⟩
    | whole _ ha =>
      cases hnewer
      obtain ⟨version, hwhole⟩ := readWhole_eq ha
      exact ⟨version, by rw [take, if_neg hguard]; exact hwhole⟩
  | whole hi => cases hi

end

end MochimoWallet.Keystore

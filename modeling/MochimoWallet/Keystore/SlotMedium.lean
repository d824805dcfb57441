import MochimoWallet.Keystore.Slots
import MochimoWallet.Lib.TwoCopies

/-!
# The slot layout

On Windows a commit frames its image, writes the slot that does not hold the newest
one and flushes it; while slot 0 still holds a store of the rename layout, or nothing,
it is then made vacant. `SlotMedium` is the two slot files and what the handle keeps
of them. Each step can return, fail or be cut short by a kill, and a write that did
not return leaves the new bytes, the old ones, or torn ones no longer than the longer.

`writeSlots_stored` is what a commit does to a store that stands in the slots,
however it ends.
-/

namespace MochimoWallet.Keystore

open Codec TwoCopies

abbrev SlotPair := Pair (Option Bytes)

theorem target_eq (i : Fin 2) : (if some i = some 1 then (0 : Fin 2) else 1) = i.rev := by
  revert i
  decide

/-- What a step that did not return leaves of its slot. -/
inductive Left where
  | took
  | kept
  | torn (bytes : Bytes)

/-- What becomes of one step of the medium. -/
inductive SlotFate where
  | done
  | failed (left : Left) (e : Error)
  | killed (left : Left)

/-- The slot files, what the open handle keeps of them, and what will become of the next steps. -/
structure SlotMedium where
  cells : SlotPair
  /-- The slot of the newest image: none only inside `create`, before its commit. -/
  newest : Option (Fin 2)
  /-- Whether slot 0 has yet to become a frame. -/
  vacate : Bool
  fates : List SlotFate

structure SlotWritten where
  slot : Fin 2

structure Flushed where

/-- One step: its effect on the slots, and what it leaves when it does not return. -/
def slotStep {α : Type} (a : α) (effect : SlotPair → SlotPair) (short : Left → SlotPair → SlotPair) :
    Call SlotMedium Error α := fun m =>
  match m.fates with
  | [] | .done :: _ => (.ok a, { m with cells := effect m.cells, fates := m.fates.tail })
  | .failed left e :: fates => (.err e, { m with cells := short left m.cells, fates })
  | .killed left :: fates => (.killed, { m with cells := short left m.cells, fates })

/-- What a write that did not return leaves. -/
def shortWrite (slot : Fin 2) (framed : Bytes) (left : Left) (cells : SlotPair) : SlotPair :=
  match left with
  | .took => cells.put slot (some framed)
  | .kept => cells
  | .torn bytes =>
    if bytes.length ≤ max framed.length (((cells slot).now.map List.length).getD 0) then
      cells.put slot (some bytes)
    else cells

def shortFlush (slot : Fin 2) (left : Left) (cells : SlotPair) : SlotPair :=
  match left with
  | .took => cells.flush slot
  | .kept | .torn _ => cells

def writeSlot (slot : Fin 2) (framed : Bytes) : Call SlotMedium Error SlotWritten :=
  slotStep ⟨slot⟩ (·.put slot (some framed)) (shortWrite slot framed)

def flushSlot (written : SlotWritten) : Call SlotMedium Error Flushed :=
  slotStep ⟨⟩ (·.flush written.slot) (shortFlush written.slot)

def flushStanding (slot : Fin 2) : Call SlotMedium Error Unit :=
  slotStep () (·.flush slot) (shortFlush slot)

/-- There is no documented flush to make of a directory's own entry. -/
def SlotMedium.fsyncParent : Call SlotMedium Error Unit := slotStep () id fun _ cells => cells

/-! ## The files -/

/-- No store yet: slot 0 is not there, nor ever was. -/
structure Vacant (cells : SlotPair) : Prop where
  slot0 : cells 0 = .clean none
  slot1 : (cells 1).now = none → ∀ x ∈ (cells 1).device, x = none
  now_mem : (cells 1).now ∈ (cells 1).device

/-- Slot 0 is a file, now and after a power cut. -/
def Present (cells : SlotPair) : Prop := none ∉ (cells 0).device

section
variable {i : Fin 2} {cells : SlotPair} {bytes : Bytes}

theorem Present.put (h : Present cells) (j : Fin 2) : Present (cells.put j (some bytes)) := by
  unfold Present
  by_cases hj : 0 = j
  · subst hj
    rw [Pair.put_self]
    intro hmem
    rcases List.mem_cons.mp hmem with hsome | hmem
    · cases hsome
    · exact h hmem
  · rw [Pair.put_of_ne hj]
    exact h

theorem Present.flush (h : Present cells) (hnow : (cells 0).now ∈ (cells 0).device) (j : Fin 2) :
    Present (cells.flush j) := by
  unfold Present
  by_cases hj : 0 = j
  · subst hj
    rw [Pair.flush_self]
    intro hmem
    exact h (List.mem_singleton.mp hmem ▸ hnow)
  · rw [Pair.flush_of_ne hj]
    exact h

theorem Present.shortWrite (h : Present cells) (j : Fin 2) (left : Left) :
    Present (shortWrite j bytes left cells) := by
  cases left with
  | took => exact h.put j
  | kept => exact h
  | torn torn =>
    rw [Keystore.shortWrite]
    split
    · exact h.put j
    · exact h

theorem Present.shortFlush (h : Present cells) (hnow : (cells 0).now ∈ (cells 0).device) (j : Fin 2)
    (left : Left) : Present (shortFlush j left cells) := by
  cases left with
  | took => exact h.flush hnow j
  | kept | torn _ => exact h

end

variable [Crypto]

/-- The vacant frame into slot 0, once slot 1 holds a flushed one. -/
def vacateSlot (target : Fin 2) (vacate : Bool) : Call SlotMedium Error Unit :=
  if target = 1 ∧ vacate then do
    let vacant ← Call.check (frame [])
    let written ← writeSlot 0 vacant
    let _ ← flushSlot written
    pure ()
  else pure ()

def writeSlots (image : Bytes) : Call SlotMedium Error Unit := do
  let m ← Call.get
  let target : Fin 2 := if m.newest = some 1 then 0 else 1
  let framed ← Call.check (frame image)
  let written ← writeSlot target framed
  let _ ← flushSlot written
  vacateSlot target m.vacate
  Call.modify fun m => { m with vacate := false, newest := some target }

instance : Layout SlotMedium where
  steps := writeSlots

/-! ## Creating and opening -/

/-- Either slot file is a store. -/
def occupied (cells : SlotPair) : Option String :=
  if (cells 0).now.isSome || (cells 1).now.isSome then some "snapshot" else none

def refuseOccupiedSlots (cells : SlotPair) : Except Error Unit :=
  match occupied cells with
  | some what => .error (.exists what)
  | none => .ok ()

def createSlots (answers : Answers) (init : Init) : Call SlotMedium Error Keystore := do
  Call.check answers.directory
  let m ← Call.get
  Call.check (refuseOccupiedSlots m.cells)
  Call.check answers.lock
  -- Asked again under the lock, where the answer decides.
  Call.check (refuseOccupiedSlots m.cells)
  let kdf ← Call.check init.kdf.checked
  let key ← Call.check (deriveKey init.password init.salt kdf)
  let ks := fresh init kdf key
  Call.modify fun m => { m with newest := none, vacate := true }
  let image ← Call.check (ks.sealImage [] 0)
  SlotMedium.fsyncParent
  fun m =>
    match commit image ⟨ks, m⟩ with
    | (.ok _, s) => (.ok s.ks, s.medium)
    | (.err e, s) => (.err e, s.medium)
    | (.killed, s) => (.killed, s.medium)

/-- A slot file's bytes, refused when they are more than any frame. -/
def readSlot (bytes : Bytes) : Except Error Bytes :=
  if bytes.length ≤ maxFrameLen then .ok bytes
  else .error (.range "keystore image length" minImageLen maxImageLen bytes.length)

/-- Slot 1 longer than any frame is torn, and no refusal. -/
def sortSlot1 : Option Bytes → Except Error Content
  | none => .ok .absent
  | some bytes =>
    match readSlot bytes with
    | .ok bytes => sort (some bytes)
    | .error _ => .ok .torn

/-- The handle of what was taken. -/
def handleOf (taken : Taken) (nonceSeed : Block nonceSeedLen) : Keystore :=
  ⟨.live taken.parsed.generation taken.parsed.slots, taken.parsed.master,
    ⟨taken.key, taken.kdf, taken.salt, nonceSeed⟩, taken.version, taken.version⟩

def Content.isOther : Content → Bool
  | .other _ => true
  | _ => false

def openSlots (answers : Answers) (unlock : Unlock) : Call SlotMedium Error Keystore := do
  Call.check answers.directory
  let m ← Call.get
  match (m.cells 0).now with
  | none => Call.refuse .missing
  | some bytes =>
  Call.check answers.lock
  Call.check answers.removeTemp
  Call.check answers.openSnapshot
  Call.check answers.read
  let bytes ← Call.check (readSlot bytes)
  let slot0 ← Call.check (sort (some bytes))
  let slot1 ← Call.check (sortSlot1 (m.cells 1).now)
  let taken ← Call.check (take slot0 slot1 unlock.password)
  -- The image taken goes to the device before the handle exists.
  if (m.cells taken.newest).now.isNone then Call.refuse (.io "flush_standing" .notFound)
  else
  flushStanding taken.newest
  Call.modify fun m => { m with newest := some taken.newest, vacate := slot0.isOther }
  pure (handleOf taken unlock.nonceSeed)

/-! ## What the slots of a store hold -/

/-- Bytes that are no frame and no image: what a write leaves that did not finish. -/
def Torn (password bytes : Bytes) : Prop :=
  sort (some bytes) = .ok .torn ∨
    (sort (some bytes) = .ok (.other bytes) ∧ ∀ p, readStore password bytes ≠ .ok p)

def Left.Allowed (password : Bytes) : Left → Prop
  | .torn bytes => Torn password bytes
  | .took | .kept => True

def SlotFate.Allowed (password : Bytes) : SlotFate → Prop
  | .done => True
  | .failed left _ | .killed left => left.Allowed password

/-- Torn bytes a power cut can leave of a slot with these unflushed contents. -/
def TornOf (password : Bytes) (xs : List (Option Bytes)) (x : Option Bytes) : Prop :=
  ∃ bytes, x = some bytes ∧ Torn password bytes ∧
    ∃ y ∈ xs, bytes.length ≤ (y.map List.length).getD 0

variable {password : Bytes} {σ : Sealing password}

/-- The slot file `x`, no longer than a frame, is sorted as content with the state `v`. -/
def Sealing.Holds (σ : Sealing password) (i : Fin 2) (x : Option Bytes) (v : Option Parsed) : Prop :=
  (x.map List.length).getD 0 ≤ maxFrameLen ∧ ∃ c, sort x = .ok c ∧ σ.Reads i c v

/-- The order of two states of one store. -/
def age (p : Parsed) : ℕ := p.generation.toNat

/-- A store stands in slot `i` with the state `p`, and slot 0 is no frame with slot 1 missing. -/
structure Stored (σ : Sealing password) (cells : SlotPair) (i : Fin 2) (p : Parsed)
    (next : Option Parsed) : Prop where
  standing : Standing σ.Holds age cells i p next
  beside : i = 0 → (∃ whole, cells 0 = .clean (some whole) ∧ sort (some whole) = .ok (.other whole)) ∨
    none ∉ (cells 1).device

section
variable {i : Fin 2} {image bytes : Bytes} {p p' : Parsed} {v : Option Parsed}
  {x : Option Bytes} {next : Option Parsed} {cells cells' : SlotPair}

theorem holds_vacant (h : frame [] = .ok bytes) : σ.Holds i (some bytes) none := by
  obtain ⟨hlen, hmax⟩ := length_frame h
  refine ⟨?_, .vacant, by simpa using sort_frame h, .vacant⟩
  show bytes.length ≤ overhead + maxImageLen
  omega

theorem ne_nil_of_opens (h : σ.Opens image p) : image ≠ [] := by
  rintro rfl
  obtain ⟨f, hread, -⟩ := h
  exact absurd (magic_of_readHeader hread) (by decide)

theorem holds_frame (ho : σ.Opens image p) (h : frame image = .ok bytes) :
    σ.Holds i (some bytes) (some p) := by
  obtain ⟨hlen, hmax⟩ := length_frame h
  refine ⟨?_, .image image, ?_, .image ho⟩
  · show bytes.length ≤ overhead + maxImageLen
    omega
  · rw [sort_frame h, if_neg (ne_nil_of_opens ho)]

theorem frame_of_opens (h : σ.Opens image p) : ∃ bytes, frame image = .ok bytes := by
  have hlen := length_of_readStore h.readStore
  have hsmall : maxImageLen < 2 ^ 32 := by decide
  exact ⟨_, if_pos ⟨lt_of_le_of_lt hlen hsmall, hlen⟩⟩

theorem sort_whole (h : σ.Opens image p) : sort (some image) = .ok (.other image) := by
  obtain ⟨f, hread, -⟩ := h
  exact sort_image hread

theorem holds_whole (h : σ.Opens image p) : σ.Holds 0 (some image) (some p) := by
  have hlen := length_of_readStore h.readStore
  refine ⟨?_, .other image, sort_whole h, .whole rfl h⟩
  show image.length ≤ overhead + maxImageLen
  omega

theorem holds_torn (h : Torn password bytes) (hlen : bytes.length ≤ maxFrameLen) :
    σ.Holds i (some bytes) none := by
  rcases h with h | ⟨h, hread⟩
  · exact ⟨hlen, .torn, h, .torn⟩
  · exact ⟨hlen, .other bytes, h, .remainder hread⟩

theorem holds_absent : σ.Holds i none none := ⟨Nat.zero_le _, .absent, rfl, .absent⟩

theorem ne_none_of_holds (h : σ.Holds i x (some p)) : x ≠ none := by
  rintro rfl
  obtain ⟨-, c, hsort, hreads⟩ := h
  cases hsort
  cases hreads

end

/-! ## What the steps can do -/

/-- The call did not return. -/
def Reply.Short {α : Type} (r : Reply Error α) : Prop := (∃ e, r = .err e) ∨ r = .killed

theorem slotStep_cases {α : Type} {a : α} {effect : SlotPair → SlotPair}
    {short : Left → SlotPair → SlotPair} {m m' : SlotMedium} {r : Reply Error α}
    (hfates : ∀ f ∈ m.fates, f.Allowed password) (h : slotStep a effect short m = (r, m')) :
    (r = .ok a ∧ m' = { m with cells := effect m.cells, fates := m.fates.tail }) ∨
      Reply.Short r ∧ ∃ left : Left, left.Allowed password ∧ m'.cells = short left m.cells := by
  unfold slotStep at h
  split at h <;> cases h
  · exact .inl ⟨rfl, rfl⟩
  · exact .inl ⟨rfl, rfl⟩
  · next left e fates hm =>
    exact .inr ⟨.inl ⟨e, rfl⟩, left, hfates (.failed left e) (by rw [hm]; exact List.mem_cons_self), rfl⟩
  · next left fates hm =>
    exact .inr ⟨.inr rfl, left, hfates (.killed left) (by rw [hm]; exact List.mem_cons_self), rfl⟩

/-- A step and what follows it: the step done and the rest run from there, or the step cut short. -/
theorem slotStep_bind {α β : Type} {a : α} {effect : SlotPair → SlotPair}
    {short : Left → SlotPair → SlotPair} {f : α → Call SlotMedium Error β} {m m' : SlotMedium}
    {r : Reply Error β} (hfates : ∀ f ∈ m.fates, f.Allowed password)
    (h : (slotStep a effect short >>= f) m = (r, m')) :
    f a { m with cells := effect m.cells, fates := m.fates.tail } = (r, m') ∨
      Reply.Short r ∧ ∃ left : Left, left.Allowed password ∧ m'.cells = short left m.cells := by
  rcases Call.bind_cases h with ⟨b, u, hstep, h⟩ | ⟨e, hstep, rfl⟩ | ⟨hstep, rfl⟩
  · rcases slotStep_cases hfates hstep with ⟨hb, rfl⟩ | ⟨⟨e, hr⟩ | hr, -⟩
    · cases hb
      exact .inl h
    · cases hr
    · cases hr
  · rcases slotStep_cases hfates hstep with ⟨hr, -⟩ | ⟨-, hm⟩
    · cases hr
    · exact .inr ⟨.inl ⟨e, rfl⟩, hm⟩
  · rcases slotStep_cases hfates hstep with ⟨hr, -⟩ | ⟨-, hm⟩
    · cases hr
    · exact .inr ⟨.inr rfl, hm⟩

theorem allowed_tail {fates : List SlotFate} (h : ∀ f ∈ fates, f.Allowed password) :
    ∀ f ∈ fates.tail, f.Allowed password :=
  fun f hf => h f (List.mem_of_mem_tail hf)

/-! ## What the steps do to a store -/

namespace Stored

variable {i : Fin 2} {p p' : Parsed} {next v : Option Parsed} {bytes : Bytes}
  {cells cells' : SlotPair}

/-- Slot 1 stands as a file that is there. -/
theorem none_notMem (h : Stored σ cells 1 p next) : none ∉ (cells 1).device := by
  rw [h.standing.flushed]
  intro hmem
  exact ne_none_of_holds h.standing.stands (List.mem_singleton.mp hmem).symm

/-- The slot that does not stand, written. -/
theorem put (h : Stored σ cells i p none) (hv : σ.Holds i.rev (some bytes) v)
    (hahead : ∀ b, v = some b → next = some b ∧ age p < age b) :
    Stored σ (cells.put i.rev (some bytes)) i p next := by
  refine ⟨h.standing.put hv hahead, ?_⟩
  rintro rfl
  rw [show (0 : Fin 2).rev = 1 from rfl, Pair.put_of_ne (by decide), Pair.put_self]
  rcases h.beside rfl with hwhole | hnone
  · exact .inl hwhole
  · exact .inr fun hmem => by
      rcases List.mem_cons.mp hmem with hsome | hmem
      · cases hsome
      · exact hnone hmem

theorem begin (h : Stored σ cells i p none) (next : Option Parsed) : Stored σ cells i p next :=
  ⟨h.standing.begin next, h.beside⟩

theorem flush_other (h : Stored σ cells i p next) : Stored σ (cells.flush i.rev) i p next := by
  refine ⟨h.standing.flush_other, ?_⟩
  rintro rfl
  have hmem := h.standing.now_mem
  rw [show (0 : Fin 2).rev = 1 from rfl] at hmem ⊢
  rw [Pair.flush_of_ne (by decide), Pair.flush_self]
  rcases h.beside rfl with hwhole | hnone
  · exact .inl hwhole
  · exact .inr fun h => hnone (List.mem_singleton.mp h ▸ hmem)

/-- The newer slot flushed: it stands from now on. -/
theorem promote (h : Stored σ cells i p next) (hv : σ.Holds i.rev (cells i.rev).now (some p'))
    (hlt : age p < age p') : Stored σ (cells.flush i.rev) i.rev p' none := by
  refine ⟨h.standing.promote hv hlt, fun hi => ?_⟩
  have hi1 := eq_one_of_rev_eq_zero i hi
  subst hi1
  exact .inr (by rw [hi, Pair.flush_of_ne (by decide)]; exact h.none_notMem)

theorem now_mem (h : Stored σ cells i p next) (j : Fin 2) : (cells j).now ∈ (cells j).device := by
  rcases eq_or_eq_rev i j with rfl | rfl
  · rw [h.standing.flushed]
    exact List.mem_singleton_self _
  · exact h.standing.now_mem

/-- Whatever a write of the other slot leaves, the store stands as it did. -/
theorem shortWrite (h : Stored σ cells i p none) (hv : σ.Holds i.rev (some bytes) v)
    (hahead : ∀ b, v = some b → next = some b ∧ age p < age b) {left : Left}
    (hleft : left.Allowed password) :
    Stored σ (shortWrite i.rev bytes left cells) i p next := by
  cases left with
  | took => exact h.put hv hahead
  | kept => exact h.begin next
  | torn torn =>
    rw [Keystore.shortWrite]
    split
    · next hlen =>
      obtain ⟨w, hold, -⟩ := h.standing.other
      have hmax := Nat.le_trans hlen (Nat.max_le.mpr ⟨hv.1, hold.1⟩)
      exact h.put (holds_torn hleft hmax) fun b hb => by cases hb
    · exact h.begin next

theorem shortFlush (h : Stored σ cells i p next) (left : Left) :
    Stored σ (shortFlush i.rev left cells) i p next := by
  cases left with
  | took => exact h.flush_other
  | kept | torn _ => exact h

end Stored

/-! ## A commit -/

/-- What a run of steps does to a store standing in slot `i` with `p`: it still does, and slot 0
stays the file it was. -/
structure Keeps (σ : Sealing password) (i : Fin 2) (p : Parsed) (next : Option Parsed)
    (cells cells' : SlotPair) : Prop where
  stored : Stored σ cells' i p next
  present : Present cells → Present cells'

section
variable {i : Fin 2} {p p' : Parsed} {image : Bytes} {m m' : SlotMedium} {r : Reply Error Unit}

theorem vacateSlot_keeps {target : Fin 2} {vacate : Bool} (h : Stored σ m.cells target p none)
    (hfates : ∀ f ∈ m.fates, f.Allowed password) (hrun : vacateSlot target vacate m = (r, m')) :
    Keeps σ target p none m.cells m'.cells ∧ (r = .ok () ∨ Reply.Short r) ∧
      (r = .ok () → target = 1 → vacate = true → Present m'.cells) := by
  unfold vacateSlot at hrun
  split at hrun
  · next hone =>
    obtain ⟨rfl, -⟩ := hone
    rcases hframe : frame [] with e | vacant
    · rw [hframe] at hrun
      cases hrun
      exact ⟨⟨h, id⟩, .inr (.inl ⟨e, rfl⟩), fun hr => by cases hr⟩
    rw [hframe, Call.check_ok, Call.pure_bind] at hrun
    have hv : σ.Holds (1 : Fin 2).rev (some vacant) none := holds_vacant hframe
    have hnone : ∀ b, (none : Option Parsed) = some b → (none : Option Parsed) = some b ∧ age p < age b :=
      fun b hb => by cases hb
    rcases slotStep_bind hfates hrun with hrun | ⟨hr, left, hleft, hm⟩
    · have hput : Stored σ (m.cells.put 0 (some vacant)) 1 p none := h.put hv hnone
      rcases slotStep_bind (allowed_tail hfates) hrun with hrun | ⟨hr, left, -, hm⟩
      · cases hrun
        refine ⟨⟨hput.flush_other, fun hp => (hp.put 0).flush (hput.now_mem 0) 0⟩, .inl rfl, ?_⟩
        intro _ _ _
        show none ∉ ((m.cells.put 0 (some vacant)).flush 0 0).device
        rw [Pair.flush_self, Pair.put_self]
        intro hmem
        cases List.mem_singleton.mp hmem
      · rw [hm]
        exact ⟨⟨hput.shortFlush left, fun hp => (hp.put 0).shortFlush (hput.now_mem 0) 0 left⟩,
          .inr hr, fun h => by rcases hr with ⟨e, hr⟩ | hr <;> rw [hr] at h <;> cases h⟩
    · rw [hm]
      exact ⟨⟨h.shortWrite hv hnone hleft, fun hp => hp.shortWrite 0 left⟩,
        .inr hr, fun h => by rcases hr with ⟨e, hr⟩ | hr <;> rw [hr] at h <;> cases h⟩
  · next hone =>
    cases hrun
    exact ⟨⟨h, id⟩, .inl rfl, fun _ ht hv => absurd ⟨ht, hv⟩ hone⟩

/-- What a commit of `p'` over a store of `p` leaves, however it ends. -/
theorem writeSlots_keeps (h : Stored σ m.cells i p none) (hnewest : m.newest = some i)
    (hopens : σ.Opens image p') (hlt : age p < age p')
    (hfates : ∀ f ∈ m.fates, f.Allowed password) (hrun : writeSlots image m = (r, m')) :
    (r = .ok () ∧ Keeps σ i.rev p' none m.cells m'.cells ∧ m'.newest = some i.rev) ∨
      Reply.Short r ∧ (Keeps σ i p (some p') m.cells m'.cells ∨
        Keeps σ i.rev p' none m.cells m'.cells) := by
  obtain ⟨framed, hframe⟩ := frame_of_opens hopens
  have htarget : (if m.newest = some 1 then (0 : Fin 2) else 1) = i.rev := by
    rw [hnewest]
    exact target_eq i
  have hv : σ.Holds i.rev (some framed) (some p') := holds_frame hopens hframe
  have hahead : ∀ b, some p' = some b → some p' = some b ∧ age p < age b := fun b hb => by
    cases hb
    exact ⟨rfl, hlt⟩
  simp only [writeSlots, Call.get_bind, htarget, hframe, Call.check_ok, Call.pure_bind] at hrun
  rcases slotStep_bind hfates hrun with hrun | ⟨hr, left, hleft, hm⟩
  · have hput : Stored σ (m.cells.put i.rev (some framed)) i p (some p') := h.put hv hahead
    have hnow : σ.Holds i.rev (m.cells.put i.rev (some framed) i.rev).now (some p') := by
      rw [Pair.put_self]
      exact hv
    rcases slotStep_bind (allowed_tail hfates) hrun with hrun | ⟨hr, left, -, hm⟩
    · have hstands := hput.promote hnow hlt
      have hpresent : Present m.cells → Present ((m.cells.put i.rev (some framed)).flush i.rev) :=
        fun hp => (hp.put _).flush (hput.now_mem 0) _
      rcases Call.bind_cases hrun with ⟨⟨⟩, u, hvac, hmod⟩ | ⟨e, hvac, rfl⟩ | ⟨hvac, rfl⟩
      · obtain ⟨hkeeps, -, -⟩ := vacateSlot_keeps hstands (allowed_tail (allowed_tail hfates)) hvac
        cases hmod
        exact .inl ⟨rfl, ⟨hkeeps.stored, hkeeps.present ∘ hpresent⟩, rfl⟩
      · obtain ⟨hkeeps, -, -⟩ := vacateSlot_keeps hstands (allowed_tail (allowed_tail hfates)) hvac
        exact .inr ⟨.inl ⟨e, rfl⟩, .inr ⟨hkeeps.stored, hkeeps.present ∘ hpresent⟩⟩
      · obtain ⟨hkeeps, -, -⟩ := vacateSlot_keeps hstands (allowed_tail (allowed_tail hfates)) hvac
        exact .inr ⟨.inr rfl, .inr ⟨hkeeps.stored, hkeeps.present ∘ hpresent⟩⟩
    · rw [hm]
      cases left with
      | took =>
        exact .inr ⟨hr, .inr ⟨hput.promote hnow hlt, fun hp => (hp.put _).flush (hput.now_mem 0) _⟩⟩
      | kept | torn _ => exact .inr ⟨hr, .inl ⟨hput, fun hp => hp.put _⟩⟩
  · rw [hm]
    exact .inr ⟨hr, .inl ⟨h.shortWrite hv hahead hleft, fun hp => hp.shortWrite _ left⟩⟩

/-- What the first commit leaves of an empty directory. -/
theorem writeSlots_first (hempty : Vacant m.cells) (hnewest : m.newest = none)
    (hvacate : m.vacate = true) (hopens : σ.Opens image p)
    (hfates : ∀ f ∈ m.fates, f.Allowed password) (hrun : writeSlots image m = (r, m')) :
    (r = .ok () ∧ Stored σ m'.cells 1 p none ∧ m'.newest = some 1 ∧ Present m'.cells) ∨
      Reply.Short r ∧ (Vacant m'.cells ∨ Stored σ m'.cells 1 p none) := by
  obtain ⟨framed, hframe⟩ := frame_of_opens hopens
  have hput (bytes : Bytes) : Vacant (m.cells.put 1 (some bytes)) := by
    refine ⟨?_, ?_, ?_⟩
    · rw [Pair.put_of_ne (by decide)]
      exact hempty.slot0
    · rw [Pair.put_self]
      intro h
      cases h
    · rw [Pair.put_self]
      exact List.mem_cons_self
  have hstands : Stored σ ((m.cells.put 1 (some framed)).flush 1) 1 p none := by
    refine ⟨.first ?_ (hput framed).slot0 holds_absent, fun h => by cases h⟩
    rw [Pair.put_self]
    exact holds_frame hopens hframe
  simp only [writeSlots, Call.get_bind, hnewest, reduceCtorEq, if_false, hvacate, hframe,
    Call.check_ok, Call.pure_bind] at hrun
  rcases slotStep_bind hfates hrun with hrun | ⟨hr, left, -, hm⟩
  · rcases slotStep_bind (allowed_tail hfates) hrun with hrun | ⟨hr, left, -, hm⟩
    · rcases Call.bind_cases hrun with ⟨⟨⟩, u, hvac, hmod⟩ | ⟨e, hvac, rfl⟩ | ⟨hvac, rfl⟩
      · obtain ⟨hkeeps, -, hpresent⟩ :=
          vacateSlot_keeps hstands (allowed_tail (allowed_tail hfates)) hvac
        cases hmod
        exact .inl ⟨rfl, hkeeps.stored, rfl, hpresent rfl rfl rfl⟩
      · obtain ⟨hkeeps, -, -⟩ := vacateSlot_keeps hstands (allowed_tail (allowed_tail hfates)) hvac
        exact .inr ⟨.inl ⟨e, rfl⟩, .inr hkeeps.stored⟩
      · obtain ⟨hkeeps, -, -⟩ := vacateSlot_keeps hstands (allowed_tail (allowed_tail hfates)) hvac
        exact .inr ⟨.inr rfl, .inr hkeeps.stored⟩
    · rw [hm]
      cases left with
      | took => exact .inr ⟨hr, .inr hstands⟩
      | kept | torn _ => exact .inr ⟨hr, .inl (hput framed)⟩
  · rw [hm]
    refine .inr ⟨hr, .inl ?_⟩
    cases left with
    | took => exact hput framed
    | kept => exact hempty
    | torn torn =>
      rw [shortWrite]
      split
      · exact hput torn
      · exact hempty

end

/-! ## Creating and opening, over the slots -/

/-- The handle seals under what the store's images share. -/
def Sealing.Of (σ : Sealing password) (crypto : StoreCrypto) : Prop :=
  crypto.kdf = σ.kdf ∧ crypto.salt = σ.salt ∧ crypto.key = σ.key

theorem opens_imageOf (hl : Crypto.Lawful) {crypto : StoreCrypto} (hσ : σ.Of crypto) {p : Parsed}
    {image : Bytes} (htags : ∀ {tag slot}, p.slots.get? tag = some slot → slot.account.tag = tag)
    (h : imageOf crypto p = .ok image) : σ.Opens image p := by
  obtain ⟨f, hread, -, hkdf, hsalt, -, hparse⟩ := parse_imageOf hl htags h
  obtain ⟨hk, hs, hkey⟩ := hσ
  exact ⟨f, hread, hkdf.trans hk, hsalt.trans hs, hkey ▸ hparse⟩

section
variable {i : Fin 2} {p : Parsed} {next : Option Parsed} {m m' : SlotMedium}

theorem createSlots_cases (hl : Crypto.Lawful) {answers : Answers} {init : Init}
    {r : Reply Error Keystore} (hfates : ∀ f ∈ m.fates, f.Allowed init.password)
    (h : createSlots answers init m = (r, m')) :
    (Reply.Short r ∧ m'.cells = m.cells) ∨
      occupied m.cells = none ∧ (Vacant m.cells →
        (Reply.Short r ∧ Vacant m'.cells) ∨
          ∃ σ : Sealing init.password, Stored σ m'.cells 1 emptyStore none ∧
            (Reply.Short r ∨ ∃ ks, r = .ok ks ∧ ks.memory = some emptyStore ∧ σ.Of ks.crypto ∧
              m'.newest = some 1 ∧ Present m'.cells)) := by
  unfold createSlots at h
  rcases Call.check_bind_cases h with ⟨e, -, rfl, rfl⟩ | ⟨-, -, h⟩
  · exact .inl ⟨.inl ⟨e, rfl⟩, rfl⟩
  rw [Call.get_bind] at h
  rcases Call.check_bind_cases h with ⟨e, -, rfl, rfl⟩ | ⟨_, hfree, h⟩
  · exact .inl ⟨.inl ⟨e, rfl⟩, rfl⟩
  have hnone : occupied m.cells = none := by
    unfold refuseOccupiedSlots at hfree
    split at hfree
    · cases hfree
    · next hnone => exact hnone
  rcases Call.check_bind_cases h with ⟨e, -, rfl, rfl⟩ | ⟨-, -, h⟩
  · exact .inl ⟨.inl ⟨e, rfl⟩, rfl⟩
  rcases Call.check_bind_cases h with ⟨e, -, rfl, rfl⟩ | ⟨-, -, h⟩
  · exact .inl ⟨.inl ⟨e, rfl⟩, rfl⟩
  rcases Call.check_bind_cases h with ⟨e, -, rfl, rfl⟩ | ⟨kdf, -, h⟩
  · exact .inl ⟨.inl ⟨e, rfl⟩, rfl⟩
  rcases Call.check_bind_cases h with ⟨e, -, rfl, rfl⟩ | ⟨key, hkey, h⟩
  · exact .inl ⟨.inl ⟨e, rfl⟩, rfl⟩
  rw [Call.modify_bind] at h
  rcases Call.check_bind_cases h with ⟨e, -, rfl, rfl⟩ | ⟨image, himage, h⟩
  · exact .inl ⟨.inl ⟨e, rfl⟩, rfl⟩
  rcases slotStep_bind (m := { m with newest := none, vacate := true }) hfates h with
    h | ⟨hr, left, -, hm⟩
  · let σ : Sealing init.password := ⟨kdf, init.salt, key, hkey⟩
    have hσ : σ.Of ⟨key, kdf, init.salt, init.nonceSeed⟩ := ⟨rfl, rfl, rfl⟩
    have hopens : σ.Opens image emptyStore :=
      opens_imageOf hl hσ (fun hget => by cases hget) himage
    refine .inr ⟨hnone, fun hempty => ?_⟩
    rw [commit] at h
    generalize hu : (⟨id m.cells, none, true, m.fates.tail⟩ : SlotMedium) = u at h
    rcases hsteps : Layout.steps image u with ⟨r', m''⟩
    have hfirst := writeSlots_first (m := u) (hu ▸ hempty) (hu ▸ rfl) (hu ▸ rfl) hopens
      (hu ▸ allowed_tail hfates) hsteps
    rw [hsteps] at h
    rcases hfirst with ⟨rfl, hstored, hnew, hpresent⟩ | ⟨⟨e, rfl⟩ | rfl, hempty | hstored⟩ <;> cases h
    · exact .inr ⟨σ, hstored, .inr ⟨_, rfl, rfl, hσ, hnew, hpresent⟩⟩
    · exact .inl ⟨.inl ⟨e, rfl⟩, hempty⟩
    · exact .inr ⟨σ, hstored, .inl (.inl ⟨e, rfl⟩)⟩
    · exact .inl ⟨.inr rfl, hempty⟩
    · exact .inr ⟨σ, hstored, .inl (.inr rfl)⟩
  · exact .inl ⟨hr, hm⟩

/-! ## What a call that returned a handle did -/

omit [Crypto] in
theorem slotStep_ok {α : Type} {a b : α} {effect : SlotPair → SlotPair}
    {short : Left → SlotPair → SlotPair} (h : slotStep a effect short m = (.ok b, m')) :
    b = a ∧ m' = { m with cells := effect m.cells, fates := m.fates.tail } := by
  unfold slotStep at h
  split at h <;> cases h <;> exact ⟨rfl, rfl⟩

omit [Crypto] in
theorem slotStep_bind_ok {α β : Type} {a : α} {b : β} {effect : SlotPair → SlotPair}
    {short : Left → SlotPair → SlotPair} {f : α → Call SlotMedium Error β}
    (h : (slotStep a effect short >>= f) m = (.ok b, m')) :
    f a { m with cells := effect m.cells, fates := m.fates.tail } = (.ok b, m') := by
  rcases Call.bind_cases h with ⟨a', u, hstep, h⟩ | ⟨e, -, hr⟩ | ⟨-, hr⟩
  · obtain ⟨rfl, rfl⟩ := slotStep_ok hstep
    exact h
  · cases hr
  · cases hr

theorem vacateSlot_ok {target : Fin 2} {vacate : Bool} (h : vacateSlot target vacate m = (.ok (), m')) :
    m'.cells 1 = m.cells 1 := by
  unfold vacateSlot at h
  split at h
  · rcases Call.check_bind_cases h with ⟨e, -, hr, -⟩ | ⟨vacant, -, h⟩
    · cases hr
    have h := slotStep_bind_ok h
    cases slotStep_bind_ok h
    show ((m.cells.put 0 (some vacant)).flush 0) 1 = m.cells 1
    rw [Pair.flush_of_ne (by decide), Pair.put_of_ne (by decide)]
  · cases h
    rfl

/-- The first commit of a store leaves its frame in slot 1. -/
theorem writeSlots_ok {image : Bytes} (hnewest : m.newest = none)
    (h : writeSlots image m = (.ok (), m')) :
    ∃ framed, frame image = .ok framed ∧ (m'.cells 1).now = some framed := by
  simp only [writeSlots, Call.get_bind, hnewest, reduceCtorEq, if_false] at h
  rcases Call.check_bind_cases h with ⟨e, -, hr, -⟩ | ⟨framed, hframe, h⟩
  · cases hr
  refine ⟨framed, hframe, ?_⟩
  have h := slotStep_bind_ok h
  have h := slotStep_bind_ok h
  rcases Call.bind_cases h with ⟨⟨⟩, u, hvacate, h⟩ | ⟨e, -, hr⟩ | ⟨-, hr⟩
  · cases h
    show (u.cells 1).now = some framed
    rw [vacateSlot_ok hvacate]
    show (((m.cells.put 1 (some framed)).flush 1) 1).now = some framed
    rw [Pair.flush_self, Pair.put_self]
    rfl
  · cases hr
  · cases hr

theorem createSlots_ok {answers : Answers} {init : Init} {ks : Keystore}
    (h : createSlots answers init m = (.ok ks, m')) :
    ks.memory = some emptyStore ∧ ∃ image framed, imageOf ks.crypto emptyStore = .ok image ∧
      frame image = .ok framed ∧ (m'.cells 1).now = some framed := by
  unfold createSlots at h
  rcases Call.check_bind_cases h with ⟨e, -, hr, -⟩ | ⟨-, -, h⟩
  · cases hr
  rw [Call.get_bind] at h
  rcases Call.check_bind_cases h with ⟨e, -, hr, -⟩ | ⟨-, -, h⟩
  · cases hr
  rcases Call.check_bind_cases h with ⟨e, -, hr, -⟩ | ⟨-, -, h⟩
  · cases hr
  rcases Call.check_bind_cases h with ⟨e, -, hr, -⟩ | ⟨-, -, h⟩
  · cases hr
  rcases Call.check_bind_cases h with ⟨e, -, hr, -⟩ | ⟨kdf, -, h⟩
  · cases hr
  rcases Call.check_bind_cases h with ⟨e, -, hr, -⟩ | ⟨key, -, h⟩
  · cases hr
  rw [Call.modify_bind] at h
  rcases Call.check_bind_cases h with ⟨e, -, hr, -⟩ | ⟨image, himage, h⟩
  · cases hr
  have h := slotStep_bind_ok h
  dsimp only at h
  rw [commit] at h
  generalize hu : (⟨id m.cells, none, true, m.fates.tail⟩ : SlotMedium) = u at h
  rcases hsteps : Layout.steps image u with ⟨_ | _ | _, m''⟩ <;> rw [hsteps] at h <;> cases h
  obtain ⟨framed, hframe, hnow⟩ := writeSlots_ok (m := u) (hu ▸ rfl) hsteps
  exact ⟨rfl, image, framed, himage, hframe, hnow⟩

/-- What a call that returned a handle took, and that it left the files as they read. -/
theorem openSlots_ok {answers : Answers} {unlock : Unlock} {ks : Keystore}
    (h : openSlots answers unlock m = (.ok ks, m')) :
    ∃ bytes slot0 slot1 taken, (m.cells 0).now = some bytes ∧ sort (some bytes) = .ok slot0 ∧
      sortSlot1 (m.cells 1).now = .ok slot1 ∧ take slot0 slot1 unlock.password = .ok taken ∧
      ks = handleOf taken unlock.nonceSeed ∧ m'.cells = m.cells.flush taken.newest ∧
      m'.newest = some taken.newest := by
  unfold openSlots at h
  rcases Call.check_bind_cases h with ⟨e, -, hr, -⟩ | ⟨-, -, h⟩
  · cases hr
  rw [Call.get_bind] at h
  rcases hnow : (m.cells 0).now with _ | bytes <;> rw [hnow] at h <;> dsimp only at h
  · cases h
  rcases Call.check_bind_cases h with ⟨e, -, hr, -⟩ | ⟨-, -, h⟩
  · cases hr
  rcases Call.check_bind_cases h with ⟨e, -, hr, -⟩ | ⟨-, -, h⟩
  · cases hr
  rcases Call.check_bind_cases h with ⟨e, -, hr, -⟩ | ⟨-, -, h⟩
  · cases hr
  rcases Call.check_bind_cases h with ⟨e, -, hr, -⟩ | ⟨-, -, h⟩
  · cases hr
  rcases Call.check_bind_cases h with ⟨e, -, hr, -⟩ | ⟨bytes', hread, h⟩
  · cases hr
  have hbytes : bytes' = bytes := by
    unfold readSlot at hread
    split at hread <;> cases hread
    rfl
  rw [hbytes] at h
  rcases Call.check_bind_cases h with ⟨e, -, hr, -⟩ | ⟨slot0, hsort0, h⟩
  · cases hr
  rcases Call.check_bind_cases h with ⟨e, -, hr, -⟩ | ⟨slot1, hsort1, h⟩
  · cases hr
  rcases Call.check_bind_cases h with ⟨e, -, hr, -⟩ | ⟨taken, htake, h⟩
  · cases hr
  split at h
  · cases h
  cases slotStep_bind_ok h
  exact ⟨bytes, slot0, slot1, taken, rfl, hsort0, hsort1, htake, rfl, rfl, rfl⟩

omit [Crypto] in
theorem flushStanding_now {slot : Fin 2} {r : Reply Error Unit}
    (h : flushStanding slot m = (r, m')) (i : Fin 2) : (m'.cells i).now = (m.cells i).now := by
  have hshort (left : Left) : (shortFlush slot left m.cells i).now = (m.cells i).now := by
    cases left with
    | took => exact Pair.flush_now ..
    | kept | torn _ => rfl
  unfold flushStanding slotStep at h
  split at h <;> cases h
  · exact Pair.flush_now ..
  · exact Pair.flush_now ..
  · exact hshort _
  · exact hshort _

/-- However a call to open ends, the files read as they did. -/
theorem openSlots_now {answers : Answers} {unlock : Unlock} {r : Reply Error Keystore}
    (h : openSlots answers unlock m = (r, m')) (i : Fin 2) :
    (m'.cells i).now = (m.cells i).now := by
  unfold openSlots at h
  rcases Call.check_bind_cases h with ⟨e, -, rfl, rfl⟩ | ⟨-, -, h⟩
  · rfl
  rw [Call.get_bind] at h
  rcases hnow : (m.cells 0).now with _ | bytes <;> rw [hnow] at h <;> dsimp only at h
  · cases h
    rfl
  rcases Call.check_bind_cases h with ⟨e, -, rfl, rfl⟩ | ⟨-, -, h⟩
  · rfl
  rcases Call.check_bind_cases h with ⟨e, -, rfl, rfl⟩ | ⟨-, -, h⟩
  · rfl
  rcases Call.check_bind_cases h with ⟨e, -, rfl, rfl⟩ | ⟨-, -, h⟩
  · rfl
  rcases Call.check_bind_cases h with ⟨e, -, rfl, rfl⟩ | ⟨-, -, h⟩
  · rfl
  rcases Call.check_bind_cases h with ⟨e, -, rfl, rfl⟩ | ⟨bytes', -, h⟩
  · rfl
  rcases Call.check_bind_cases h with ⟨e, -, rfl, rfl⟩ | ⟨slot0, -, h⟩
  · rfl
  rcases Call.check_bind_cases h with ⟨e, -, rfl, rfl⟩ | ⟨slot1, -, h⟩
  · rfl
  rcases Call.check_bind_cases h with ⟨e, -, rfl, rfl⟩ | ⟨taken, -, h⟩
  · rfl
  split at h
  · cases h
    rfl
  rcases Call.bind_cases h with ⟨⟨⟩, u, hflush, h⟩ | ⟨e, hflush, -⟩ | ⟨hflush, -⟩
  · cases h
    exact flushStanding_now hflush i
  · exact flushStanding_now hflush i
  · exact flushStanding_now hflush i

theorem isFramed_of_sort {bytes : Bytes} (h : sort (some bytes) = .ok (.other bytes)) {c : Content}
    (hc : sort (some bytes) = .ok c) : c.isFramed = false := by
  rw [h] at hc
  cases hc
  rfl

theorem isAbsent_of_sort {bytes : Bytes} {c : Content} (hc : sort (some bytes) = .ok c) :
    c.isAbsent = false := by
  simp only [sort] at hc
  repeat' split at hc
  all_goals cases hc <;> rfl

/-- Two slot files of a store are read, sorted and taken. -/
theorem take_files {x1 : Option Bytes} {bytes : Bytes} {v0 v1 : Option Parsed} {j : Fin 2} {q : Parsed}
    (h0 : σ.Holds 0 (some bytes) v0) (h1 : σ.Holds 1 x1 v1)
    (hbeside : x1 = none → sort (some bytes) = .ok (.other bytes))
    (hne : ∀ a b, v0 = some a → v1 = some b → a.generation ≠ b.generation)
    (hnewer : newer v0 v1 = some (j, q)) :
    ∃ (slot0 slot1 : Content) (version : UInt16), readSlot bytes = .ok bytes ∧
      sort (some bytes) = .ok slot0 ∧ sortSlot1 x1 = .ok slot1 ∧
      take slot0 slot1 password = .ok ⟨j, version, q, σ.key, σ.kdf, σ.salt⟩ := by
  obtain ⟨hlen0, slot0, hsort0, hreads0⟩ := h0
  obtain ⟨hlen1, slot1, hsort1, hreads1⟩ := h1
  have hguard : slot0.isFramed → slot1.isAbsent = false := fun hframed => by
    rcases x1 with _ | bytes1
    · rw [isFramed_of_sort (hbeside rfl) hsort0] at hframed
      cases hframed
    · exact isAbsent_of_sort hsort1
  obtain ⟨version, htake⟩ := take_eq hreads0 hreads1 hguard hne hnewer
  refine ⟨slot0, slot1, version, if_pos hlen0, hsort0, ?_, htake⟩
  rcases x1 with _ | bytes1
  · exact hsort1
  · rw [sortSlot1, readSlot, if_pos (show bytes1.length ≤ maxFrameLen from hlen1)]
    exact hsort1

theorem generation_ne {a b : Parsed} (h : age a < age b) : a.generation ≠ b.generation :=
  fun heq => by
    rw [age, age, heq] at h
    exact Nat.lt_irrefl _ h

/-- What the other slot says of the one that stands: nothing newer, or what is in the writing. -/
theorem Stored.beside_cases (h : Stored σ m.cells i p next) :
    (Stored σ m.cells i p none ∧ ∃ v, σ.Holds i.rev (m.cells i.rev).now v ∧
      ∀ b, v = some b → age b < age p) ∨
    ∃ q, next = some q ∧ age p < age q ∧ σ.Holds i.rev (m.cells i.rev).now (some q) := by
  obtain ⟨v, hv, hbehind⟩ := h.standing.other
  rcases v with _ | b
  · have hold : ∀ b, (none : Option Parsed) = some b → age b < age p := fun b hb => by cases hb
    exact .inl ⟨⟨h.standing.settle hv hold, h.beside⟩, none, hv, hold⟩
  rcases hbehind b rfl with hlt | ⟨hnext, hlt⟩
  · have hold : ∀ c, some b = some c → age c < age p := fun c hc => by cases hc; exact hlt
    exact .inl ⟨⟨h.standing.settle hv hold, h.beside⟩, some b, hv, hold⟩
  · exact .inr ⟨b, hnext, hlt, hv⟩

/-- What is read of a store's slots is of one that stands or of the newer one in the writing. -/
theorem Stored.takes (h : Stored σ m.cells i p next) {bytes : Bytes}
    (hnow : (m.cells 0).now = some bytes) :
    ∃ (slot0 slot1 : Content) (version : UInt16) (j : Fin 2) (q : Parsed),
      readSlot bytes = .ok bytes ∧ sort (some bytes) = .ok slot0 ∧
      sortSlot1 (m.cells 1).now = .ok slot1 ∧
      take slot0 slot1 password = .ok ⟨j, version, q, σ.key, σ.kdf, σ.salt⟩ ∧
      σ.Holds j (m.cells j).now (some q) ∧
      ((j = i ∧ q = p ∧ Stored σ m.cells i p none) ∨
        (j = i.rev ∧ next = some q ∧ age p < age q)) := by
  have hwhole (h1 : (m.cells 1).now = none) : sort (some bytes) = .ok (.other bytes) := by
    have hi : i = 0 := by
      rcases eq_or_eq_rev i 1 with hi | hi
      · rw [hi] at h1
        exact absurd h1 (ne_none_of_holds h.standing.stands)
      · exact eq_zero_of_one_eq_rev i hi
    rcases h.beside hi with ⟨whole, hclean, hsort⟩ | hnone
    · rw [hclean] at hnow
      cases hnow
      exact hsort
    · exact absurd (h1 ▸ h.now_mem 1) hnone
  rcases h.beside_cases with ⟨hquiet, v, hv, hold⟩ | ⟨q, hnext, hlt, hq⟩
  · have hst := h.standing.stands
    rcases fin2_cases i with rfl | rfl
    · have hnewer : newer (some p) v = some (0, p) := by
        rcases v with _ | b
        · rfl
        · exact if_pos (UInt64.lt_iff_toNat_lt.mpr (hold b rfl))
      obtain ⟨slot0, slot1, version, hr, hs0, hs1, ht⟩ := take_files (hnow ▸ hst) hv hwhole
        (fun a b ha hb => by cases ha; exact (generation_ne (hold b hb)).symm) hnewer
      exact ⟨slot0, slot1, version, 0, p, hr, hs0, hs1, ht, hst, .inl ⟨rfl, rfl, hquiet⟩⟩
    · have hnewer : newer v (some p) = some (1, p) := by
        rcases v with _ | b
        · rfl
        · exact if_neg (UInt64.not_lt.mpr (UInt64.le_of_lt (UInt64.lt_iff_toNat_lt.mpr (hold b rfl))))
      obtain ⟨slot0, slot1, version, hr, hs0, hs1, ht⟩ := take_files (hnow ▸ hv) hst hwhole
        (fun a b ha hb => by cases hb; exact generation_ne (hold a ha)) hnewer
      exact ⟨slot0, slot1, version, 1, p, hr, hs0, hs1, ht, hst, .inl ⟨rfl, rfl, hquiet⟩⟩
  · have hst := h.standing.stands
    rcases fin2_cases i with rfl | rfl
    · have hnewer : newer (some p) (some q) = some (1, q) :=
        if_neg (UInt64.not_lt.mpr (UInt64.le_of_lt (UInt64.lt_iff_toNat_lt.mpr hlt)))
      obtain ⟨slot0, slot1, version, hr, hs0, hs1, ht⟩ := take_files (hnow ▸ hst) hq hwhole
        (fun a b ha hb => by cases ha; cases hb; exact generation_ne hlt) hnewer
      exact ⟨slot0, slot1, version, 1, q, hr, hs0, hs1, ht, hq, .inr ⟨rfl, hnext, hlt⟩⟩
    · have hnewer : newer (some q) (some p) = some (0, q) := if_pos (UInt64.lt_iff_toNat_lt.mpr hlt)
      obtain ⟨slot0, slot1, version, hr, hs0, hs1, ht⟩ := take_files (hnow ▸ hq) hst hwhole
        (fun a b ha hb => by cases ha; cases hb; exact (generation_ne hlt).symm) hnewer
      exact ⟨slot0, slot1, version, 0, q, hr, hs0, hs1, ht, hq, .inr ⟨rfl, hnext, hlt⟩⟩

end

end MochimoWallet.Keystore

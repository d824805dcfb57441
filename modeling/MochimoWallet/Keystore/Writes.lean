import MochimoWallet.Keystore.Store

/-!
# The writers of a handle are the transitions of the store

`install p a` seals the state `p`, commits the image and, when the commit returns,
makes `p` the handle's memory. `call_eq` says that each of the five writers computes
the store's transition first, refuses with nothing touched when the transition does,
and installs its result otherwise; `install_cases` lists the ways an installation
ends. What follows about writers is read off these two.
-/

namespace MochimoWallet.Keystore

open Codec

variable [Crypto]

/-! ## Record lists -/

/-- The record of a slot as it stands. -/
def recordOf (e : Tag × Slot) : RecordRef :=
  ⟨e.1, e.2.account, e.2.account.wotsIndex, e.2.pending, e.2.settled⟩

/-- The record list of a state's own slots. -/
def recordsOf (slots : OrdMap Tag Slot) : List RecordRef := slots.entries.map recordOf

theorem encodeRecords_congr {rs rs' : List RecordRef} (h : rs.map RecordRef.core = rs'.map RecordRef.core)
    (image : Bytes) (prev : Option Tag) : encodeRecords image prev rs = encodeRecords image prev rs' := by
  induction rs generalizing rs' image prev with
  | nil =>
    have : rs' = [] := by simpa using h.symm
    rw [this]
  | cons r rs ih =>
    cases rs' with
    | nil => cases h
    | cons r' rs' =>
      obtain ⟨hr, hrs⟩ := List.cons.inj h
      have hbytes := recordBytes_congr hr
      obtain ⟨tag, account, index, pending, settled⟩ := r
      obtain ⟨tag', account', index', pending', settled'⟩ := r'
      simp only [RecordRef.core, Prod.mk.injEq] at hr
      obtain ⟨rfl, hk, rfl, rfl, rfl⟩ := hr
      simp only [encodeRecords, blockOf, hbytes, ih hrs]
      rfl

theorem encode_congr {rs rs' : List RecordRef} (h : rs.map RecordRef.core = rs'.map RecordRef.core)
    (generation : UInt64) (master : Option Secret) (kdf : Kdf) (salt : Block saltLen)
    (key : Block keyLen) (nonce : Block nonceLen) :
    encode rs generation master kdf salt key nonce =
      encode rs' generation master kdf salt key nonce := by
  have hlen : rs.length = rs'.length := by simpa using congrArg List.length h
  simp only [encode, hlen, encodeRecords_congr h]

theorem recordsWith_none (slots : OrdMap Tag Slot) : recordsWith slots none none = recordsOf slots :=
  rfl

theorem recordsWith_over (slots : OrdMap Tag Slot) (tag : Tag) (index : WotsIndex)
    (pending settled : Option Pending) :
    (recordsWith slots (some (tag, index, pending, settled)) none).map RecordRef.core =
      (recordsOf (slots.modify tag fun s =>
        ⟨{ s.account with wotsIndex := index }, pending, settled⟩)).map RecordRef.core := by
  simp only [recordsWith, recordsOf, OrdMap.modify, List.map_map]
  refine List.map_congr_left fun e _ => ?_
  by_cases he : e.1 = tag
  · simp [RecordRef.core, recordOf, he]
  · simp [RecordRef.core, recordOf, he, Ne.symm he]

instance : Std.Total (fun a b : RecordRef => a.tag ≤ b.tag) := ⟨fun a b => le_total a.tag b.tag⟩

instance : IsTrans RecordRef (fun a b => a.tag ≤ b.tag) := ⟨fun _ _ _ => le_trans⟩

theorem pairwise_recordsOf (slots : OrdMap Tag Slot) :
    (recordsOf slots).Pairwise fun a b => a.tag < b.tag :=
  List.pairwise_map.mpr slots.sorted

theorem recordsOf_tag_inj {slots : OrdMap Tag Slot} {a b : RecordRef} (ha : a ∈ recordsOf slots)
    (hb : b ∈ recordsOf slots) (h : a.tag = b.tag) : a = b := by
  obtain ⟨e, he, rfl⟩ := List.mem_map.mp ha
  obtain ⟨e', he', rfl⟩ := List.mem_map.mp hb
  obtain ⟨t, s⟩ := e
  obtain ⟨t', s'⟩ := e'
  have h : t = t' := h
  subst h
  have hs := (OrdMap.mem_entries_iff.mp he).symm.trans (OrdMap.mem_entries_iff.mp he')
  cases hs
  rfl

/-- Sorting the added record in is inserting the account. -/
theorem recordsWith_extra {slots : OrdMap Tag Slot} {account : Account} {tag : Tag}
    (h : slots.get? tag = none) :
    recordsWith slots none (some (account, tag)) =
      recordsOf (slots.insert tag ⟨account, none, none⟩) := by
  have hins : (recordsOf (slots.insert tag ⟨account, none, none⟩)).Perm
      (recordOf (tag, ⟨account, none, none⟩) :: recordsOf slots) :=
    (OrdMap.insertEntry_perm h).map recordOf
  have hperm : (recordsWith slots none (some (account, tag))).Perm
      (recordsOf (slots.insert tag ⟨account, none, none⟩)) :=
    (List.perm_insertionSort ..).trans ((List.perm_append_singleton ..).trans hins.symm)
  have hsorted : (recordsWith slots none (some (account, tag))).Pairwise fun a b => a.tag ≤ b.tag :=
    List.pairwise_insertionSort ..
  have hsorted' : (recordsOf (slots.insert tag ⟨account, none, none⟩)).Pairwise
      fun a b => a.tag ≤ b.tag := (pairwise_recordsOf _).imp fun h => h.le
  refine hperm.eq_of_pairwise ?_ hsorted hsorted'
  intro a b ha hb hab hba
  exact recordsOf_tag_inj (hperm.mem_iff.mp ha) hb (le_antisymm hab hba)

/-! ## Installing a state -/

variable {D : Type}

/-- The handle's state, while it is live. -/
def memory (ks : Keystore) : Option Parsed :=
  match ks.state with
  | .live generation slots => some ⟨generation, slots, ks.master⟩
  | .poisoned _ => none

/-- The handle with `p` as its state. -/
def holding (ks : Keystore) (p : Parsed) : Keystore :=
  { ks with state := .live p.generation p.slots, master := p.master }

/-- The image this handle seals of a state. -/
def imageOf (crypto : StoreCrypto) (p : Parsed) : Except Error Bytes :=
  encode (recordsOf p.slots) p.generation p.master crypto.kdf crypto.salt crypto.key
    (nonceFor crypto.nonceSeed p.generation)

/-- Seal `p`, commit the image, and hold `p`. -/
def install [Layout D] {α : Type} (p : Parsed) (a : α) : Call (Opened D) Error α := do
  let s ← Call.get
  let image ← Call.check (imageOf s.ks.crypto p)
  let _ ← commit image
  Call.modify fun s => { s with ks := s.ks.holding p }
  pure a

theorem memory_eq_some {ks : Keystore} {p : Parsed} :
    ks.memory = some p ↔ ks.state = .live p.generation p.slots ∧ ks.master = p.master := by
  unfold memory
  cases hs : ks.state with
  | live generation slots =>
    rw [Option.some.injEq]
    constructor
    · rintro rfl; exact ⟨rfl, rfl⟩
    · rintro ⟨h, hm⟩; cases p; cases h; exact congrArg _ hm
  | poisoned first => simp

theorem poisoned_of_memory {ks : Keystore} (h : ks.memory = none) :
    ∃ first, ks.state = .poisoned first := by
  unfold memory at h
  split at h
  · cases h
  · next first hs => exact ⟨first, hs⟩

theorem live_of_memory {ks : Keystore} {p : Parsed} (h : ks.memory = some p) :
    ks.live = .ok (p.generation, p.slots) := by
  simp only [live, (memory_eq_some.mp h).1]

@[simp] theorem memory_holding (ks : Keystore) (p : Parsed) : (ks.holding p).memory = some p := rfl

theorem commit_bind [Layout D] {α : Type} (image : Bytes) (f : Durable → Call (Opened D) Error α)
    (s : Opened D) :
    (commit image >>= f) s = match Layout.steps image s.medium with
      | (.ok (), m) => f ⟨⟩ ⟨{ s.ks with onDiskVersion := version }, m⟩
      | (.err e, m) => (.err e, ⟨{ s.ks with state := .poisoned e }, m⟩)
      | (.killed, m) => (.killed, ⟨s.ks, m⟩) := by
  rw [Call.bind_apply, commit]
  rcases Layout.steps image s.medium with ⟨_ | e | _, m⟩ <;> rfl

theorem liveMut_apply (f : UInt64 → OrdMap Tag Slot → UInt64 × OrdMap Tag Slot) {t : Opened D}
    {g : UInt64} {slots : OrdMap Tag Slot} (h : t.ks.state = .live g slots) :
    liveMut f t = (.ok (), ⟨{ t.ks with state := .live (f g slots).1 (f g slots).2 }, t.medium⟩) := by
  simp only [liveMut, h]

theorem liveMut_bind {α : Type} (f : UInt64 → OrdMap Tag Slot → UInt64 × OrdMap Tag Slot)
    (k : Unit → Call (Opened D) Error α) {t : Opened D} {g : UInt64} {slots : OrdMap Tag Slot}
    (h : t.ks.state = .live g slots) :
    (liveMut f >>= k) t =
      k () ⟨{ t.ks with state := .live (f g slots).1 (f g slots).2 }, t.medium⟩ := by
  rw [Call.bind_apply, liveMut_apply f h]

theorem poisonOn_ok {α : Type} {k : Call (Opened D) Error α} {t u : Opened D} {a : α}
    (h : k t = (.ok a, u)) : poisonOn k t = (.ok a, u) := by
  simp only [poisonOn, h]

/-- A sealing, a commit and an application that makes `p` the handle's memory are an installation
of `p`. -/
theorem commit_apply [Layout D] {α : Type} {p : Parsed} {a : α} {s : Opened D}
    {image : Except Error Bytes} {apply : Durable → Call (Opened D) Error α}
    (himage : image = imageOf s.ks.crypto p)
    (happly : ∀ m, apply ⟨⟩ ⟨{ s.ks with onDiskVersion := version }, m⟩ =
      (.ok a, ⟨{ s.ks.holding p with onDiskVersion := version }, m⟩)) :
    (do let image ← Call.check image
        let durable ← commit image
        apply durable) s = install p a s := by
  subst himage
  simp only [install, Call.get_bind]
  rcases imageOf s.ks.crypto p with e | image
  · rfl
  · simp only [Call.check_ok, Call.pure_bind, commit_bind]
    rcases Layout.steps image s.medium with ⟨_ | e | _, m⟩
    · exact happly m
    · rfl
    · rfl

/-! ## The writers -/

section
variable [Layout D] {s : Opened D} {p : Parsed}

/-- A transition's result installed, or its refusal with nothing touched. -/
def settle {α : Type} (next : Except Error Parsed) (a : Parsed → α) : Call (Opened D) Error α :=
  match next with
  | .ok p => install p (a p)
  | .error e => Call.refuse e

theorem adoptMaster_eq (hm : s.ks.memory = some p) (master : Secret) :
    adoptMaster master s = settle (p.next (.adoptMaster master)) (fun _ => ⟨⟩) s := by
  obtain ⟨hstate, hmaster⟩ := memory_eq_some.mp hm
  simp only [adoptMaster, Call.get_bind, live_of_memory hm, Call.check_ok, Call.pure_bind, hmaster,
    Parsed.next]
  by_cases hsome : p.master.isSome
  · rw [if_pos hsome, if_pos hsome]; rfl
  rw [if_neg hsome, if_neg hsome]
  rcases nextGeneration p.generation u64Max u64Max with e | g
  · rfl
  simp only [Call.check_ok, Call.pure_bind, ok_bind]
  refine commit_apply (s := s) ?_ fun m => ?_
  · rw [recordsWith_none]; rfl
  · simp [holding, hstate]

theorem add_eq (hm : s.ks.memory = some p) (account : Account) :
    add account s = settle (p.next (.add account)) (fun _ => ()) s := by
  obtain ⟨hstate, hmaster⟩ := memory_eq_some.mp hm
  simp only [add, Call.get_bind, live_of_memory hm, Call.check_ok, Call.pure_bind, hmaster,
    Parsed.next]
  by_cases htag : p.slots.contains account.tag
  · rw [if_pos htag, if_pos htag]; rfl
  rw [if_neg htag, if_neg htag]
  by_cases hroot : account.key.root?.any fun root => (importedRoots p.slots).any (· = root)
  · rw [if_pos hroot, if_pos hroot]; rfl
  rw [if_neg hroot, if_neg hroot]
  rcases recomputedStreamId p.master account with e | incoming
  · rfl
  simp only [Call.check_ok, Call.pure_bind, ok_bind]
  by_cases hstream : p.slots.values.any fun s => storedStreamId s.account = incoming
  · rw [if_pos hstream, if_pos hstream]; rfl
  rw [if_neg hstream, if_neg hstream]
  rcases nextGeneration p.generation (u64Max - 1) p.generation.toNat with e | g
  · rfl
  simp only [Call.check_ok, Call.pure_bind, ok_bind]
  refine commit_apply (s := s) ?_ fun m => ?_
  · rw [recordsWith_extra (by simpa [OrdMap.contains] using htag)]
    simp only [sealImage, imageOf, hmaster]
  · simp [liveMut, holding, hstate, hmaster]

/-- The state an index-moving commit installs, and its application to memory. -/
theorem advanceCommitted_eq (hm : s.ks.memory = some p) {tag : Tag} {slot : Slot}
    (hslot : p.slots.get? tag = some slot) {next : WotsIndex}
    (hahead : slot.account.wotsIndex.pos < next.pos) (pending settled : Option Pending) :
    advanceCommitted tag p.generation next pending settled s =
      settle (do
        let g ← nextGeneration p.generation (u64Max - 1) p.generation.toNat
        .ok (p.write g tag next pending settled)) (fun _ => ⟨tag, next⟩) s := by
  obtain ⟨hstate, hmaster⟩ := memory_eq_some.mp hm
  rw [advanceCommitted]
  rcases nextGeneration p.generation (u64Max - 1) p.generation.toNat with e | g
  · rfl
  simp only [Call.check_ok, Call.pure_bind, Call.get_bind, live_of_memory hm, ok_bind]
  have hadv : slot.account.advanceTo next = .ok { slot.account with wotsIndex := next } :=
    Account.advanceTo_eq_ok.mpr ⟨hahead, rfl⟩
  refine commit_apply (s := s) ?_ fun m => ?_
  · simp only [sealImage, imageOf, hmaster, Parsed.write]
    exact encode_congr (recordsWith_over ..) ..
  · have hmod : p.slots.modify tag (fun _ =>
        ⟨{ slot.account with wotsIndex := next }, pending, settled⟩) =
        (p.write g tag next pending settled).slots := by
      refine OrdMap.ext_get? fun k => ?_
      simp only [Parsed.write, OrdMap.get?_modify]
      split
      · next hk => subst hk; simp [hslot]
      · rfl
    refine poisonOn_ok ?_
    refine (liveMut_bind _ _ (by exact hstate)).trans ?_
    simp only [Call.get_bind, live, Call.check_ok, Call.pure_bind, slotOf, hslot, hadv]
    refine (liveMut_bind _ _ rfl).trans ?_
    simp [holding, hmaster, hmod, Parsed.write]

theorem persistAdvance_eq (hm : s.ks.memory = some p) (tag : Tag) (digest : Digest)
    (figures : Figures) :
    persistAdvance tag digest figures s =
      settle (p.next (.persistAdvance tag digest figures)) (fun p' =>
        ⟨tag, ((p'.slots.get? tag).map (·.account.wotsIndex)).getD .zero⟩) s := by
  simp only [persistAdvance, Call.get_bind, live_of_memory hm, Call.check_ok, Call.pure_bind,
    Parsed.next]
  rcases hslot : slotOf p.slots tag with e | slot
  · rfl
  have hget := slotOf_eq_ok.mp hslot
  simp only [Call.check_ok, Call.pure_bind, ok_bind]
  rcases refuseOpen slot with e | ⟨⟩
  · rfl
  simp only [Call.check_ok, Call.pure_bind, ok_bind]
  rcases hadv : slot.account.wotsIndex.advanced with e | next
  · rfl
  have hpos := WotsIndex.advanced_eq_ok.mp hadv
  simp only [Call.check_ok, Call.pure_bind, ok_bind]
  rw [advanceCommitted_eq hm hget (by omega)]
  rcases nextGeneration p.generation (u64Max - 1) p.generation.toNat with e | g
  · rfl
  · simp only [ok_bind, settle, Parsed.write, OrdMap.get?_modify, if_true, hget, Option.map_some,
      Option.getD_some]

theorem persistAdvanceTo_eq (hm : s.ks.memory = some p) (tag : Tag) (target : WotsIndex) :
    persistAdvanceTo tag target s =
      settle (p.next (.persistAdvanceTo tag target)) (fun _ => ⟨tag, target⟩) s := by
  simp only [persistAdvanceTo, Call.get_bind, live_of_memory hm, Call.check_ok, Call.pure_bind,
    Parsed.next]
  rcases hslot : slotOf p.slots tag with e | slot
  · rfl
  have hget := slotOf_eq_ok.mp hslot
  simp only [Call.check_ok, Call.pure_bind, ok_bind]
  rcases refuseOpen slot with e | ⟨⟩
  · rfl
  simp only [Call.check_ok, Call.pure_bind, ok_bind]
  by_cases hle : target.pos ≤ slot.account.wotsIndex.pos
  · rw [if_pos hle, if_pos hle]; rfl
  · rw [if_neg hle, if_neg hle, advanceCommitted_eq hm hget (by omega)]

theorem persistSettled_eq (hm : s.ks.memory = some p) (tag : Tag) :
    persistSettled tag s = settle (p.next (.persistSettled tag)) (fun _ => ()) s := by
  obtain ⟨hstate, hmaster⟩ := memory_eq_some.mp hm
  simp only [persistSettled, Call.get_bind, live_of_memory hm, Call.check_ok, Call.pure_bind,
    Parsed.next]
  rcases hslot : slotOf p.slots tag with e | slot
  · rfl
  have hget := slotOf_eq_ok.mp hslot
  simp only [Call.check_ok, Call.pure_bind, ok_bind]
  rcases hopen : slot.pending with _ | block
  · rfl
  rcases nextGeneration p.generation (u64Max - 1) p.generation.toNat with e | g
  · rfl
  simp only [Call.check_ok, Call.pure_bind, ok_bind]
  refine commit_apply (s := s) ?_ fun m => ?_
  · simp only [sealImage, imageOf, hmaster, Parsed.write]
    exact encode_congr (recordsWith_over ..) ..
  · have hmod : p.slots.modify tag (fun _ => ⟨slot.account, none, some block⟩) =
        (p.write g tag slot.account.wotsIndex none (some block)).slots := by
      refine OrdMap.ext_get? fun k => ?_
      simp only [Parsed.write, OrdMap.get?_modify]
      split
      · next hk => subst hk; simp [hget]
      · rfl
    refine poisonOn_ok ?_
    refine (liveMut_bind _ _ (by exact hstate)).trans ?_
    simp only [Call.get_bind, live, Call.check_ok, Call.pure_bind, slotOf, hget]
    refine (liveMut_apply _ rfl).trans ?_
    simp [holding, hmaster, hmod, Parsed.write]

end

/-! ## Any writer -/

namespace Op

/-- The writer of an operation, with the receipt it returns, if any. -/
def call [Layout D] : Op → Call (Opened D) Error (Option AdvanceReceipt)
  | .adoptMaster master => do
    let _ ← Keystore.adoptMaster master
    pure none
  | .add account => do
    Keystore.add account
    pure none
  | .persistAdvance tag digest figures => do
    let receipt ← Keystore.persistAdvance tag digest figures
    pure (some receipt)
  | .persistAdvanceTo tag target => do
    let receipt ← Keystore.persistAdvanceTo tag target
    pure (some receipt)
  | .persistSettled tag => do
    Keystore.persistSettled tag
    pure none

end Op

section
variable [Layout D] {s t : Opened D} {p : Parsed}

theorem settle_map {α β : Type} {next : Except Error Parsed} {a : Parsed → α} {f : α → β}
    {x : Call (Opened D) Error α} (h : x s = settle next a s) :
    (do let r ← x
        pure (f r)) s = settle next (fun p => f (a p)) s := by
  rw [Call.bind_apply, h]
  rcases next with e | p
  · rfl
  simp only [settle, install, Call.get_bind]
  rcases imageOf s.ks.crypto p with e | image
  · rfl
  simp only [Call.check_ok, Call.pure_bind, commit_bind]
  rcases Layout.steps image s.medium with ⟨_ | e | _, m⟩ <;> rfl

/-- Every writer is its transition, installed. -/
theorem call_eq (hm : s.ks.memory = some p) (op : Op) :
    op.call s = settle (p.next op) op.receipt s := by
  cases op with
  | adoptMaster master => exact settle_map (f := fun _ => none) (adoptMaster_eq hm master)
  | add account => exact settle_map (f := fun _ => none) (add_eq hm account)
  | persistAdvance tag digest figures => exact settle_map (f := some) (persistAdvance_eq hm ..)
  | persistAdvanceTo tag target => exact settle_map (f := some) (persistAdvanceTo_eq hm ..)
  | persistSettled tag => exact settle_map (f := fun _ => none) (persistSettled_eq hm tag)

/-- The ways a writer ends on a handle that holds `p`: refused with nothing touched, or committed
with the steps' own outcome. -/
inductive CallEnd (s t : Opened D) (p : Parsed) (op : Op) :
    Reply Error (Option AdvanceReceipt) → Prop where
  | refused {e : Error} (ht : t = s) : CallEnd s t p op (.err e)
  | done {p' : Parsed} {image : Bytes} (hnext : p.next op = .ok p')
      (himage : imageOf s.ks.crypto p' = .ok image)
      (hsteps : Layout.steps image s.medium = (.ok (), t.medium))
      (hks : t.ks = { s.ks.holding p' with onDiskVersion := version }) :
      CallEnd s t p op (.ok (op.receipt p'))
  | failed {p' : Parsed} {image : Bytes} {e : Error} (hnext : p.next op = .ok p')
      (himage : imageOf s.ks.crypto p' = .ok image)
      (hsteps : Layout.steps image s.medium = (.err e, t.medium))
      (hks : t.ks = { s.ks with state := .poisoned e }) : CallEnd s t p op (.err e)
  | killed {p' : Parsed} {image : Bytes} (hnext : p.next op = .ok p')
      (himage : imageOf s.ks.crypto p' = .ok image)
      (hsteps : Layout.steps image s.medium = (.killed, t.medium)) (hks : t.ks = s.ks) :
      CallEnd s t p op .killed

theorem call_end {op : Op} {r : Reply Error (Option AdvanceReceipt)}
    (hm : s.ks.memory = some p) (h : op.call s = (r, t)) : CallEnd s t p op r := by
  rw [call_eq hm] at h
  rcases hnext : p.next op with e | p'
  · rw [hnext] at h; cases h; exact .refused rfl
  rw [hnext] at h
  simp only [settle, install, Call.get_bind] at h
  rcases himage : imageOf s.ks.crypto p' with e | image
  · rw [himage] at h; cases h; exact .refused rfl
  rw [himage, Call.check_ok, Call.pure_bind, commit_bind] at h
  rcases hsteps : Layout.steps image s.medium with ⟨_ | e | _, m⟩ <;> rw [hsteps] at h <;> cases h
  · exact .done hnext himage hsteps rfl
  · exact .failed hnext himage hsteps rfl
  · exact .killed hnext himage hsteps rfl

/-- One image was given to the medium, of `p'`; what the handle holds then is how its steps ended. A
handle whose commit failed is poisoned, and a killed process has none. -/
structure Committed (s t : Opened D) (p p' : Parsed) (reply : Reply Error Unit) : Prop where
  himage : ∃ image, imageOf s.ks.crypto p' = .ok image ∧
    Layout.steps image s.medium = (reply, t.medium)
  hmemory : t.ks.memory = match reply with
    | .ok _ => some p'
    | .err _ => none
    | .killed => some p

/-- A writer on a live handle refuses, or commits one image of the state its operation leads to. -/
theorem call_committed {op : Op} {r : Reply Error (Option AdvanceReceipt)}
    (hm : s.ks.memory = some p) (h : op.call s = (r, t)) :
    (t = s ∧ ∃ e, r = .err e) ∨ ∃ p' reply, p.next op = .ok p' ∧ Committed s t p p' reply ∧
      r = reply.map fun _ => op.receipt p' := by
  cases call_end hm h with
  | refused ht => exact .inl ⟨ht, _, rfl⟩
  | @done p' image hnext himage hsteps hks =>
    exact .inr ⟨p', _, hnext, ⟨⟨image, himage, hsteps⟩, by rw [hks]; rfl⟩, rfl⟩
  | @failed p' image e hnext himage hsteps hks =>
    exact .inr ⟨p', _, hnext, ⟨⟨image, himage, hsteps⟩, by rw [hks]; rfl⟩, rfl⟩
  | @killed p' image hnext himage hsteps hks =>
    exact .inr ⟨p', _, hnext, ⟨⟨image, himage, hsteps⟩, by rw [hks]; exact hm⟩, rfl⟩

/-- An operation whose state can be sealed is committed. -/
theorem call_sealed {op : Op} {r : Reply Error (Option AdvanceReceipt)} {p' : Parsed}
    (hm : s.ks.memory = some p) (hnext : p.next op = .ok p')
    (hsealed : ∃ image, imageOf s.ks.crypto p' = .ok image) (h : op.call s = (r, t)) :
    ∃ reply, Committed s t p p' reply ∧ r = reply.map fun _ => op.receipt p' := by
  obtain ⟨image, himage⟩ := hsealed
  rw [call_eq hm, hnext] at h
  simp only [settle, install, Call.get_bind, himage, Call.check_ok, Call.pure_bind, commit_bind] at h
  rcases hsteps : Layout.steps image s.medium with ⟨_ | e | _, m⟩ <;> rw [hsteps] at h <;> cases h
  · exact ⟨.ok (), ⟨⟨image, himage, hsteps⟩, rfl⟩, rfl⟩
  · exact ⟨.err e, ⟨⟨image, himage, hsteps⟩, rfl⟩, rfl⟩
  · exact ⟨.killed, ⟨⟨image, himage, hsteps⟩, hm⟩, rfl⟩

theorem add_call {account : Account} {r : Reply Error Unit} (h : add account s = (r, t)) :
    (Op.add account).call s = (r.map fun _ => none, t) :=
  Call.map_apply (f := fun _ => none) h

theorem persistAdvance_call {tag : Tag} {digest : Digest} {figures : Figures}
    {r : Reply Error AdvanceReceipt} (h : persistAdvance tag digest figures s = (r, t)) :
    (Op.persistAdvance tag digest figures).call s = (r.map some, t) :=
  Call.map_apply (f := some) h

theorem persistAdvanceTo_call {tag : Tag} {target : WotsIndex} {r : Reply Error AdvanceReceipt}
    (h : persistAdvanceTo tag target s = (r, t)) :
    (Op.persistAdvanceTo tag target).call s = (r.map some, t) :=
  Call.map_apply (f := some) h

/-- A poisoned handle refuses every writer and touches nothing. -/
theorem call_poisoned {first : Error} (h : s.ks.state = .poisoned first) (op : Op) :
    op.call s = (.err (.poisoned first), s) := by
  have hlive : s.ks.live = .error (.poisoned first) := by simp only [live, h]
  cases op <;>
    simp only [Op.call, adoptMaster, add, persistAdvance, persistAdvanceTo, persistSettled,
      Call.bind_apply, Call.get_apply, hlive, Call.check_error, Call.refuse_apply]

end

/-! ## An installed image reads back -/

/-- The image of a state is read, under the key it was sealed with, as that state. -/
theorem parse_imageOf (hl : Crypto.Lawful) {crypto : StoreCrypto} {p : Parsed} {image : Bytes}
    (htags : ∀ {tag slot}, p.slots.get? tag = some slot → slot.account.tag = tag)
    (h : imageOf crypto p = .ok image) :
    ∃ f, readHeader image = .ok f ∧ f.version = version ∧
      f.header.kdf = crypto.kdf ∧ f.header.salt = crypto.salt ∧ image.length ≤ maxImageLen ∧
      parseWithKey image crypto.key = .ok p := by
  obtain ⟨f, m, hread, hv, hheader, hlen, hm, hparse⟩ := parseWithKey_encode hl (fun r hr => by
    obtain ⟨e, he, rfl⟩ := List.mem_map.mp hr
    exact htags (OrdMap.mem_entries_iff.mp he)) h
  have hslots : m = p.slots := by
    have hentries : m.entries = p.slots.entries := by
      rw [hm, recordsOf, List.map_map]
      exact List.map_id _
    cases m; cases hp : p.slots; simp_all
  subst hslots
  exact ⟨f, hread, hv, by rw [hheader], by rw [hheader], hlen, hparse⟩

end MochimoWallet.Keystore

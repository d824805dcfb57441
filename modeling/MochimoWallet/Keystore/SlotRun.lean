import Mathlib.Logic.Relation
import MochimoWallet.Keystore.Reservations
import MochimoWallet.Keystore.SlotMedium

/-!
# Runs of a store in slots

A `SlotWorld` is the two slot files, the handle a process has open on them, and a
record of what callers were told: whether `create` has returned or the store was
there to begin with, the state of the last call that returned a store (`current`),
and the state of the commit begun since (`inflight`). `SlotWorld.Inv` holds in every
world a run reaches; `slots_crash_safe` says what it gives every later open.
-/

namespace MochimoWallet.Keystore

open Codec TwoCopies

section
variable [Crypto]

/-! ## Opening a store in slots -/

section
variable {password : Bytes} {σ : Sealing password} {i : Fin 2} {p : Parsed} {next : Option Parsed}
  {m m' : SlotMedium}

/-- What a call to open a store standing in slot `i` with `p` leaves. -/
inductive OpenEnd (σ : Sealing password) (i : Fin 2) (p : Parsed) (next : Option Parsed)
    (m m' : SlotMedium) : Reply Error Keystore → Prop where
  | short {r : Reply Error Keystore} (hr : Reply.Short r) (h : Keeps σ i p next m.cells m'.cells) :
      OpenEnd σ i p next m m' r
  /-- Refused with the newer image on the device all the same. -/
  | flushed {r : Reply Error Keystore} {q : Parsed} (hr : Reply.Short r) (hnext : next = some q)
      (hlt : age p < age q) (h : Keeps σ i.rev q none m.cells m'.cells) : OpenEnd σ i p next m m' r
  | done {ks : Keystore} {j : Fin 2} {q : Parsed} (hm : ks.memory = some q) (hσ : σ.Of ks.crypto)
      (hnewest : m'.newest = some j) (h : Keeps σ j q none m.cells m'.cells)
      (hq : q = p ∨ next = some q ∧ age p < age q) : OpenEnd σ i p next m m' (.ok ks)

theorem openSlots_end {answers : Answers} {unlock : Unlock} {r : Reply Error Keystore}
    (h : Stored σ m.cells i p next) (hpassword : unlock.password = password)
    (hfates : ∀ f ∈ m.fates, f.Allowed password) (hrun : openSlots answers unlock m = (r, m')) :
    OpenEnd σ i p next m m' r := by
  have hsame {e : Error} : OpenEnd σ i p next m m (.err e) := .short (.inl ⟨e, rfl⟩) ⟨h, id⟩
  unfold openSlots at hrun
  rcases Call.check_bind_cases hrun with ⟨e, -, rfl, rfl⟩ | ⟨-, -, hrun⟩
  · exact hsame
  rw [Call.get_bind] at hrun
  rcases hnow : (m.cells 0).now with _ | bytes <;> rw [hnow] at hrun <;> dsimp only at hrun
  · cases hrun
    exact hsame
  rcases Call.check_bind_cases hrun with ⟨e, -, rfl, rfl⟩ | ⟨-, -, hrun⟩
  · exact hsame
  rcases Call.check_bind_cases hrun with ⟨e, -, rfl, rfl⟩ | ⟨-, -, hrun⟩
  · exact hsame
  rcases Call.check_bind_cases hrun with ⟨e, -, rfl, rfl⟩ | ⟨-, -, hrun⟩
  · exact hsame
  rcases Call.check_bind_cases hrun with ⟨e, -, rfl, rfl⟩ | ⟨-, -, hrun⟩
  · exact hsame
  obtain ⟨slot0, slot1, version, j, q, hread, hsort0, hsort1, htake, hholds, hq⟩ := h.takes hnow
  have hthere : ((m.cells j).now.isNone) = false := by
    rw [Option.isNone_eq_false_iff, Option.isSome_iff_ne_none]
    exact ne_none_of_holds hholds
  rw [hpassword] at hrun
  simp only [hread, hsort0, hsort1, htake, Call.check_ok, Call.pure_bind, hthere,
    Bool.false_eq_true, if_false] at hrun
  have hdone : Keeps σ j q none m.cells (m.cells.flush j) ∧ (q = p ∨ next = some q ∧ age p < age q) := by
    rcases hq with ⟨rfl, rfl, hquiet⟩ | ⟨rfl, hnext, hlt⟩
    · rw [h.standing.flush_standing]
      exact ⟨⟨hquiet, id⟩, .inl rfl⟩
    · exact ⟨⟨h.promote hholds hlt, fun hp => hp.flush (h.now_mem 0) _⟩, .inr ⟨hnext, hlt⟩⟩
  rcases slotStep_bind hfates hrun with hrun | ⟨hr, left, -, hm⟩
  · cases hrun
    exact .done rfl ⟨rfl, rfl, rfl⟩ rfl hdone.1 hdone.2
  · cases left with
    | took =>
      have hm : m'.cells = m.cells.flush j := hm
      rcases hq with ⟨rfl, rfl, hquiet⟩ | ⟨rfl, hnext, hlt⟩
      · rw [h.standing.flush_standing] at hm
        exact .short hr (by rw [hm]; exact ⟨h, id⟩)
      · exact .flushed hr hnext hlt (hm ▸ hdone.1)
    | kept | torn _ =>
      have hm : m'.cells = m.cells := hm
      exact .short hr (by rw [hm]; exact ⟨h, id⟩)

/-- With nothing refused, a store whose slot 0 is a file opens. -/
theorem openSlots_good (h : Stored σ m.cells i p next) (hpresent : Present m.cells)
    (hfates : m.fates = []) (nonceSeed : Block nonceSeedLen) :
    ∃ ks m', openSlots .good ⟨password, nonceSeed⟩ m = (.ok ks, m') := by
  rcases hnow : (m.cells 0).now with _ | bytes
  · exact absurd (hnow ▸ h.now_mem 0) hpresent
  obtain ⟨slot0, slot1, version, j, q, hread, hsort0, hsort1, htake, hholds, -⟩ := h.takes hnow
  have hthere : ((m.cells j).now.isNone) = false := by
    rw [Option.isNone_eq_false_iff, Option.isSome_iff_ne_none]
    exact ne_none_of_holds hholds
  refine ⟨handleOf ⟨j, version, q, σ.key, σ.kdf, σ.salt⟩ nonceSeed,
    ⟨m.cells.flush j, some j, slot0.isOther, []⟩, ?_⟩
  simp only [openSlots, Answers.good, Call.check_ok, Call.pure_bind, Call.get_bind, hnow, hread,
    hsort0, hsort1, htake, hthere, Bool.false_eq_true, if_false]
  simp only [Call.bind_apply, flushStanding, slotStep, hfates, Call.modify_apply, Call.pure_apply,
    List.tail_nil]

/-- No slot 0, no store. -/
theorem openSlots_missing {answers : Answers} {unlock : Unlock} {r : Reply Error Keystore}
    (hnow : (m.cells 0).now = none) (hrun : openSlots answers unlock m = (r, m')) :
    Reply.Short r ∧ m'.cells = m.cells := by
  unfold openSlots at hrun
  rcases Call.check_bind_cases hrun with ⟨e, -, rfl, rfl⟩ | ⟨-, -, hrun⟩
  · exact ⟨.inl ⟨e, rfl⟩, rfl⟩
  rw [Call.get_bind, hnow] at hrun
  cases hrun
  exact ⟨.inl ⟨_, rfl⟩, rfl⟩

end

/-! ## The world -/

/-- An open handle, with what it keeps of the slots. -/
structure SlotHandle where
  ks : Keystore
  newest : Option (Fin 2)
  vacate : Bool

structure SlotWorld where
  cells : SlotPair
  handle : Option SlotHandle
  /-- `create` has returned, or the store was there before. -/
  created : Bool
  /-- The state of the last create, open or commit that returned. -/
  current : Option Parsed
  /-- The state of the commit begun since, if one was. -/
  inflight : Option Parsed

/-- The state a writer sets out to commit. -/
def begun (ks : Keystore) (op : Op) : Option Parsed :=
  ks.memory.bind fun p => (p.next op).toOption

namespace SlotWorld

/-- After a call to create, which begins a commit where there is no store. -/
def creating (w : SlotWorld) (r : Reply Error Keystore) (m : SlotMedium) : SlotWorld :=
  match r with
  | .ok ks => ⟨m.cells, some ⟨ks, m.newest, m.vacate⟩, true, ks.memory, none⟩
  | _ =>
    { w with
      cells := m.cells
      handle := none
      inflight := if (occupied w.cells).isNone then some emptyStore else w.inflight }

def opening (w : SlotWorld) (r : Reply Error Keystore) (m : SlotMedium) : SlotWorld :=
  match r with
  | .ok ks =>
    { w with
      cells := m.cells
      handle := some ⟨ks, m.newest, m.vacate⟩
      current := ks.memory
      inflight := none }
  | _ => { w with cells := m.cells, handle := none }

/-- After a writer, which begins a commit unless it is refused with the handle live. -/
def writing (w : SlotWorld) (ks : Keystore) (op : Op) (r : Reply Error (Option AdvanceReceipt))
    (s : Opened SlotMedium) : SlotWorld :=
  let handle : SlotHandle := ⟨s.ks, s.medium.newest, s.medium.vacate⟩
  match r with
  | .ok _ =>
    { w with cells := s.medium.cells, handle := some handle, current := s.ks.memory, inflight := none }
  | .err _ =>
    { w with
      cells := s.medium.cells
      handle := some handle
      inflight := if s.ks.memory.isSome then w.inflight else (begun ks op).or w.inflight }
  | .killed =>
    { w with cells := s.medium.cells, handle := none, inflight := (begun ks op).or w.inflight }

/-- One step, over the store whose images `password` opens. A call may come with another password,
but then it is refused and writes nothing. -/
inductive Step (password : Bytes) (w : SlotWorld) : SlotWorld → Prop where
  | create {answers : Answers} {init : Init} {fates : List SlotFate} {r : Reply Error Keystore}
      {m : SlotMedium} (hclosed : w.handle = none)
      (hpassword : init.password = password ∨ Reply.Short r ∧ m.cells = w.cells)
      (hfates : ∀ f ∈ fates, f.Allowed password)
      (h : createSlots answers init ⟨w.cells, none, false, fates⟩ = (r, m)) :
      Step password w (w.creating r m)
  | open' {answers : Answers} {unlock : Unlock} {fates : List SlotFate} {r : Reply Error Keystore}
      {m : SlotMedium} (hclosed : w.handle = none)
      (hpassword : unlock.password = password ∨ Reply.Short r ∧ m.cells = w.cells)
      (hfates : ∀ f ∈ fates, f.Allowed password)
      (h : openSlots answers unlock ⟨w.cells, none, false, fates⟩ = (r, m)) :
      Step password w (w.opening r m)
  | write {op : Op} {handle : SlotHandle} {fates : List SlotFate}
      {r : Reply Error (Option AdvanceReceipt)} {s : Opened SlotMedium}
      (hhandle : w.handle = some handle) (hfates : ∀ f ∈ fates, f.Allowed password)
      (h : op.call ⟨handle.ks, ⟨w.cells, handle.newest, handle.vacate, fates⟩⟩ = (r, s)) :
      Step password w (w.writing handle.ks op r s)
  /-- The handle dropped, or its process ended between calls. -/
  | close : Step password w { w with handle := none }
  | powerCut {cells : SlotPair} (h : w.cells.Cut (TornOf password) cells) :
      Step password w { w with cells, handle := none }

def Run (password : Bytes) : SlotWorld → SlotWorld → Prop := Relation.ReflTransGen (Step password)

/-- An empty directory. -/
def nothing : SlotWorld := ⟨fun _ => .clean none, none, false, none, none⟩

/-- A store in the rename layout: the whole of slot 0 one image. -/
def renamed (image : Bytes) (p : Parsed) : SlotWorld :=
  ⟨fun i => if i = 0 then .clean (some image) else .clean none, none, true, some p, none⟩

/-- Where runs start. -/
inductive Start (password : Bytes) : SlotWorld → Prop where
  | nothing : Start password nothing
  | renamed {image : Bytes} {p : Parsed} (h : readStore password image = .ok p) :
      Start password (renamed image p)

/-! ## The invariant -/

/-- The store of the slots is the last one a call returned, or what was begun since. -/
def Current (w : SlotWorld) (p : Parsed) (next : Option Parsed) : Prop :=
  (w.current = some p ∧ next = w.inflight) ∨
    (w.inflight = some p ∧ next = none ∧ ∀ c, w.current = some c → age c < age p)

inductive Inv (password : Bytes) (w : SlotWorld) : Prop where
  | vacant (h : Vacant w.cells) (hhandle : w.handle = none) (hcreated : w.created = false)
      (hcurrent : w.current = none)
  | stored {σ : Sealing password} {i : Fin 2} {p : Parsed} {next : Option Parsed}
      (h : Stored σ w.cells i p next) (hcreated : w.created = true → Present w.cells)
      (hcurrent : w.Current p next)
      (hlive : ∀ handle q, w.handle = some handle → handle.ks.memory = some q →
        σ.Of handle.ks.crypto ∧ handle.newest = some i ∧ q = p ∧ w.current = some p ∧ next = none)

/-- What is current stays so until something newer is. -/
def Ahead (x y : Option Parsed) : Prop :=
  ∀ c, x = some c → ∃ c', y = some c' ∧ (c' = c ∨ age c < age c')

theorem ahead_refl (x : Option Parsed) : Ahead x x := fun c h => ⟨c, h, .inl rfl⟩

variable {password : Bytes} {w w' : SlotWorld}

theorem inv_of_start (h : Start password w) : w.Inv password := by
  cases h with
  | nothing =>
    have hvacant : Vacant nothing.cells :=
      ⟨rfl, fun _ x hx => List.mem_singleton.mp hx, List.mem_singleton_self (none : Option Bytes)⟩
    exact .vacant hvacant rfl rfl rfl
  | @renamed image p h =>
    obtain ⟨f, hf, hkey⟩ := bind_eq_ok.mp h
    obtain ⟨key, hderive, hparse⟩ := bind_eq_ok.mp hkey
    let σ : Sealing password := ⟨f.header.kdf, f.header.salt, key, hderive⟩
    have hopens : σ.Opens image p := ⟨f, hf, rfl, rfl, hparse⟩
    refine .stored (σ := σ) (i := 0) (p := p) ⟨⟨rfl, holds_whole hopens, ?_, ?_⟩, ?_⟩ ?_
      (.inl ⟨rfl, rfl⟩) ?_
    · exact List.mem_singleton_self _
    · intro x hx
      have hx : x = none := List.mem_singleton.mp hx
      subst hx
      exact ⟨none, holds_absent, fun b hb => by cases hb⟩
    · exact fun _ => .inl ⟨image, rfl, sort_whole hopens⟩
    · intro _ hmem
      cases List.mem_singleton.mp hmem
    · intro handle q hh
      cases hh

/-! ## One step keeps it -/

theorem ahead_of_current {p q : Parsed} {next : Option Parsed} (hcurrent : w.Current p next)
    (hq : q = p ∨ next = some q ∧ age p < age q) : Ahead w.current (some q) := by
  intro c hc
  refine ⟨q, rfl, ?_⟩
  rcases hcurrent with ⟨hp, -⟩ | ⟨-, hnext, hlt⟩
  · rw [hp] at hc
    cases hc
    rcases hq with rfl | ⟨-, hlt⟩
    · exact .inl rfl
    · exact .inr hlt
  · have hlt := hlt c hc
    rcases hq with rfl | ⟨hsome, -⟩
    · exact .inr hlt
    · rw [hnext] at hsome
      cases hsome

/-- A store in the slots is no empty directory. -/
theorem occupied_of_stored {σ : Sealing password} {cells : SlotPair} {i : Fin 2} {p : Parsed}
    {next : Option Parsed} (h : Stored σ cells i p next) : occupied cells ≠ none := by
  have hsome : (cells i).now.isSome :=
    Option.isSome_iff_ne_none.mpr (ne_none_of_holds h.standing.stands)
  rcases fin2_cases i with rfl | rfl <;> simp [occupied, hsome]

theorem creating_short {r : Reply Error Keystore} {m : SlotMedium} (hr : Reply.Short r) :
    w.creating r m = { w with
      cells := m.cells
      handle := none
      inflight := if (occupied w.cells).isNone then some emptyStore else w.inflight } := by
  rcases hr with ⟨e, rfl⟩ | rfl <;> rfl

theorem opening_short {r : Reply Error Keystore} {m : SlotMedium} (hr : Reply.Short r) :
    w.opening r m = { w with cells := m.cells, handle := none } := by
  rcases hr with ⟨e, rfl⟩ | rfl <;> rfl

theorem inv_create (hl : Crypto.Lawful) (hinv : w.Inv password) {answers : Answers} {init : Init}
    {fates : List SlotFate} {r : Reply Error Keystore} {m : SlotMedium}
    (hpassword : init.password = password ∨ Reply.Short r ∧ m.cells = w.cells)
    (hfates : ∀ f ∈ fates, f.Allowed password)
    (h : createSlots answers init ⟨w.cells, none, false, fates⟩ = (r, m)) :
    (w.creating r m).Inv password ∧ Ahead w.current (w.creating r m).current := by
  -- With nothing written, the store is what it was; there is one unless a commit was begun.
  have hsame (hr : Reply.Short r) (hcells : m.cells = w.cells) :
      (w.creating r m).Inv password ∧ Ahead w.current (w.creating r m).current := by
    rw [creating_short hr]
    refine ⟨?_, ahead_refl _⟩
    cases hinv with
    | vacant hv _ hcreated hcurrent => exact .vacant (hcells ▸ hv) rfl hcreated hcurrent
    | stored hs hcreated hcurrent hlive =>
      have hsome := occupied_of_stored hs
      rw [if_neg (by simpa using hsome)]
      exact .stored (hcells ▸ hs) (hcells ▸ hcreated) hcurrent fun _ _ hh => by cases hh
  rcases hpassword with rfl | ⟨hr, hcells⟩
  · rcases createSlots_cases hl (m := ⟨w.cells, none, false, fates⟩) hfates h with
      ⟨hr, hcells⟩ | ⟨hempty, hend⟩
    · exact hsame hr hcells
    cases hinv with
    | vacant hv _ hcreated hcurrent =>
      have hnone : Ahead w.current (w.creating r m).current := fun c hc => by
        rw [hcurrent] at hc
        cases hc
      refine ⟨?_, hnone⟩
      rcases hend hv with ⟨hr, hv⟩ | ⟨σ, hs, hr | ⟨ks, rfl, hm, hσ, hnewest, hpresent⟩⟩
      · rw [creating_short hr]
        exact .vacant hv rfl hcreated hcurrent
      · rw [creating_short hr, hempty]
        refine .stored hs (fun hc => ?_) (.inr ⟨rfl, rfl, fun c hc => ?_⟩) fun _ _ hh => by cases hh
        · rw [show w.created = true from hc] at hcreated
          cases hcreated
        · rw [show w.current = some c from hc] at hcurrent
          cases hcurrent
      · refine .stored hs (fun _ => hpresent) (.inl ⟨hm, rfl⟩) fun handle q hh hq => ?_
        cases hh
        rw [hm] at hq
        cases hq
        exact ⟨hσ, hnewest, rfl, hm, rfl⟩
    | stored hs => exact absurd hempty (occupied_of_stored hs)
  · exact hsame hr hcells

theorem inv_open (hinv : w.Inv password) {answers : Answers} {unlock : Unlock}
    {fates : List SlotFate} {r : Reply Error Keystore} {m : SlotMedium}
    (hpassword : unlock.password = password ∨ Reply.Short r ∧ m.cells = w.cells)
    (hfates : ∀ f ∈ fates, f.Allowed password)
    (h : openSlots answers unlock ⟨w.cells, none, false, fates⟩ = (r, m)) :
    (w.opening r m).Inv password ∧ Ahead w.current (w.opening r m).current := by
  have hsame (hr : Reply.Short r) (hcells : m.cells = w.cells) :
      (w.opening r m).Inv password ∧ Ahead w.current (w.opening r m).current := by
    rw [opening_short hr]
    refine ⟨?_, ahead_refl _⟩
    cases hinv with
    | vacant hv _ hcreated hcurrent => exact .vacant (hcells ▸ hv) rfl hcreated hcurrent
    | stored hs hcreated hcurrent hlive =>
      exact .stored (hcells ▸ hs) (hcells ▸ hcreated) hcurrent fun _ _ hh => by cases hh
  rcases hpassword with hpassword | ⟨hr, hcells⟩
  · cases hinv with
    | vacant hv hhandle hcreated hcurrent =>
      have hnow : (w.cells 0).now = none := by
        rw [hv.slot0]
        rfl
      obtain ⟨hr, hcells⟩ := openSlots_missing hnow h
      exact hsame hr hcells
    | stored hs hcreated hcurrent hlive =>
      cases openSlots_end (m := ⟨w.cells, none, false, fates⟩) hs hpassword hfates h with
      | short hr hkeeps =>
        rw [opening_short hr]
        exact ⟨.stored hkeeps.stored (hkeeps.present ∘ hcreated) hcurrent
          (fun _ _ hh => by cases hh), ahead_refl _⟩
      | @flushed _ q hr hnext hlt hkeeps =>
        rw [opening_short hr]
        refine ⟨.stored hkeeps.stored (hkeeps.present ∘ hcreated) ?_ (fun _ _ hh => by cases hh),
          ahead_refl _⟩
        rcases hcurrent with ⟨hp, hin⟩ | ⟨-, hnone, -⟩
        · refine .inr ⟨hin ▸ hnext, rfl, fun c hc => ?_⟩
          rw [show w.current = some c from hc] at hp
          cases hp
          exact hlt
        · rw [hnone] at hnext
          cases hnext
      | @done ks j q hm hσ hnewest hkeeps hq =>
        refine ⟨.stored hkeeps.stored (hkeeps.present ∘ hcreated) (.inl ⟨hm, rfl⟩)
          fun handle q' hh hq' => ?_, ?_⟩
        · cases hh
          rw [hm] at hq'
          cases hq'
          exact ⟨hσ, hnewest, rfl, hm, rfl⟩
        · rw [show (w.opening (.ok ks) m).current = some q from hm]
          exact ahead_of_current hcurrent hq
  · exact hsame hr hcells

theorem wf_of_holds {σ : Sealing password} {i : Fin 2} {x : Option Bytes} {p : Parsed}
    (h : σ.Holds i x (some p)) : p.Wf := by
  obtain ⟨-, c, -, hreads⟩ := h
  cases hreads with
  | image hopens => exact wf_of_readStore hopens.readStore
  | whole _ hopens => exact wf_of_readStore hopens.readStore

/-- What a commit of `p'` that did not return leaves: the store of before with `p'` in the writing,
or that of `p'`. -/
theorem inv_begun {σ : Sealing password} {i : Fin 2} {p p' : Parsed} {cells : SlotPair}
    {handle : Option SlotHandle} (hcreated : w.created = true → Present w.cells)
    (hcurrent : w.current = some p) (hlt : age p < age p')
    (hdead : ∀ h, handle = some h → h.ks.memory = none)
    (hkeeps : Keeps σ i p (some p') w.cells cells ∨ Keeps σ i.rev p' none w.cells cells) :
    Inv password { w with cells, handle, inflight := some p' } := by
  have hlive {q : Parsed} (h : SlotHandle) (hh : handle = some h) (hq : h.ks.memory = some q) :
      False := by
    rw [hdead h hh] at hq
    cases hq
  rcases hkeeps with hkeeps | hkeeps
  · exact .stored hkeeps.stored (hkeeps.present ∘ hcreated) (.inl ⟨hcurrent, rfl⟩)
      fun h q hh hq => (hlive h hh hq).elim
  · refine .stored hkeeps.stored (hkeeps.present ∘ hcreated) (.inr ⟨rfl, rfl, fun c hc => ?_⟩)
      fun h q hh hq => (hlive h hh hq).elim
    rw [show w.current = some c from hc] at hcurrent
    cases hcurrent
    exact hlt

/-- A refused call leaves the world as it is. -/
theorem writing_refused {handle : SlotHandle} {op : Op} {e : Error} {fates : List SlotFate}
    (hhandle : w.handle = some handle) :
    w.writing handle.ks op (.err e) ⟨handle.ks, ⟨w.cells, handle.newest, handle.vacate, fates⟩⟩ =
      w := by
  have hinflight : (if handle.ks.memory.isSome then w.inflight
      else (begun handle.ks op).or w.inflight) = w.inflight := by
    rcases hm : handle.ks.memory with _ | q
    · rw [begun, hm]
      rfl
    · rfl
  cases w
  simp only at hhandle
  subst hhandle
  exact congrArg (SlotWorld.mk _ _ _ _) hinflight

theorem inv_write (hl : Crypto.Lawful) (hinv : w.Inv password) {op : Op} {handle : SlotHandle}
    {fates : List SlotFate} {r : Reply Error (Option AdvanceReceipt)} {s : Opened SlotMedium}
    (hhandle : w.handle = some handle) (hfates : ∀ f ∈ fates, f.Allowed password)
    (h : op.call ⟨handle.ks, ⟨w.cells, handle.newest, handle.vacate, fates⟩⟩ = (r, s)) :
    (w.writing handle.ks op r s).Inv password ∧
      Ahead w.current (w.writing handle.ks op r s).current := by
  rcases hm : handle.ks.memory with _ | p
  · obtain ⟨first, hfirst⟩ := poisoned_of_memory hm
    rw [call_poisoned hfirst op] at h
    cases h
    rw [writing_refused hhandle]
    exact ⟨hinv, ahead_refl _⟩
  cases hinv with
  | vacant _ hnone =>
    rw [hhandle] at hnone
    cases hnone
  | @stored σ i p₀ next hs hcreated hcurrent hlive =>
  obtain ⟨hσ, hnewest, rfl, hnow, rfl⟩ := hlive handle p hhandle hm
  have hbegun {p' : Parsed} (hnext : p.next op = .ok p') : begun handle.ks op = some p' := by
    rw [begun, hm, Option.bind_some, hnext]
    rfl
  have hsteps {p' : Parsed} {image : Bytes} {r' : Reply Error Unit} (hnext : p.next op = .ok p')
      (himage : imageOf handle.ks.crypto p' = .ok image)
      (hsteps : Layout.steps image (⟨w.cells, handle.newest, handle.vacate, fates⟩ : SlotMedium) =
        (r', s.medium)) := by
    have hwf := wf_of_holds hs.standing.stands
    have hopens := opens_imageOf hl hσ
      (fun hget => (Parsed.step_of_next hnext).1.touched.tags hwf hget) himage
    have hlt : age p < age p' := by
      have hgen := (Parsed.step_of_next hnext).2
      simp only [age]
      omega
    exact And.intro hlt (writeSlots_keeps (m := ⟨w.cells, handle.newest, handle.vacate, fates⟩) hs
      hnewest hopens hlt hfates hsteps)
  cases call_end hm h with
  | refused ht =>
    subst ht
    rw [writing_refused hhandle]
    exact ⟨.stored hs hcreated hcurrent hlive, ahead_refl _⟩
  | @done p' image hnext himage hdone hks =>
    obtain ⟨hlt, ⟨-, hkeeps, hnew⟩ | ⟨⟨e, he⟩ | he, -⟩⟩ := hsteps hnext himage hdone
    · have hm' : s.ks.memory = some p' := by rw [hks]; rfl
      refine ⟨.stored hkeeps.stored (hkeeps.present ∘ hcreated) (.inl ⟨hm', rfl⟩)
        (fun h' q hh hq => ?_), fun c hc => ⟨p', hm', ?_⟩⟩
      · cases hh
        rw [show s.ks.memory = some q from hq] at hm'
        cases hm'
        exact ⟨by rw [hks]; exact hσ, hnew, rfl, hq, rfl⟩
      · rw [hnow] at hc
        cases hc
        exact .inr hlt
    · cases he
    · cases he
  | @failed p' image e hnext himage hfailed hks =>
    obtain ⟨hlt, ⟨he, -⟩ | ⟨-, hkeeps⟩⟩ := hsteps hnext himage hfailed
    · cases he
    · have hdead : s.ks.memory = none := by rw [hks]; rfl
      have hworld : w.writing handle.ks op (.err e) s = { w with
          cells := s.medium.cells
          handle := some ⟨s.ks, s.medium.newest, s.medium.vacate⟩
          inflight := some p' } := by
        simp only [writing, hdead, hbegun hnext]
        rfl
      rw [hworld]
      exact ⟨inv_begun hcreated hnow hlt (fun h' hh => by cases hh; exact hdead) hkeeps, ahead_refl _⟩
  | @killed p' image hnext himage hkilled hks =>
    obtain ⟨hlt, ⟨he, -⟩ | ⟨-, hkeeps⟩⟩ := hsteps hnext himage hkilled
    · cases he
    · have hworld : w.writing handle.ks op .killed s = { w with
          cells := s.medium.cells
          handle := none
          inflight := some p' } := by
        simp only [writing, hbegun hnext]
        rfl
      rw [hworld]
      exact ⟨inv_begun hcreated hnow hlt (fun h' hh => by cases hh) hkeeps, ahead_refl _⟩

theorem mem_or_some_of_cut {cell cell' : Cell (Option Bytes)}
    (h : cell.Cut (TornOf password) cell') : ∃ x, cell' = .clean x ∧ (x ∈ cell.device ∨ x ≠ none) := by
  cases h with
  | whole h => exact ⟨_, rfl, .inl h⟩
  | torn _ h =>
    obtain ⟨bytes, rfl, -⟩ := h
    exact ⟨_, rfl, .inr fun h => by cases h⟩

theorem none_notMem_of_cut {cell cell' : Cell (Option Bytes)} (h : cell.Cut (TornOf password) cell')
    (hnone : none ∉ cell.device) : none ∉ cell'.device := by
  obtain ⟨x, rfl, hx⟩ := mem_or_some_of_cut h
  intro hmem
  have hmem : none = x := List.mem_singleton.mp hmem
  subst hmem
  rcases hx with hx | hx
  · exact hnone hx
  · exact hx rfl

theorem inv_powerCut (hinv : w.Inv password) {cells : SlotPair}
    (h : w.cells.Cut (TornOf password) cells) :
    Inv password { w with cells, handle := none } := by
  cases hinv with
  | vacant hv _ hcreated hcurrent =>
    refine .vacant ⟨?_, ?_, ?_⟩ rfl hcreated hcurrent
    · have h0 := h 0
      rw [hv.slot0] at h0
      exact h0.of_clean
    · obtain ⟨x, hx, -⟩ := mem_or_some_of_cut (h 1)
      show (cells 1).now = none → ∀ y ∈ (cells 1).device, y = none
      rw [hx]
      intro hnow y hy
      rw [List.mem_singleton.mp hy]
      exact hnow
    · obtain ⟨x, hx, -⟩ := mem_or_some_of_cut (h 1)
      show (cells 1).now ∈ (cells 1).device
      rw [hx]
      exact List.mem_singleton_self _
  | @stored σ i p next hs hcreated hcurrent hlive =>
    refine .stored ⟨hs.standing.cut h ?_, ?_⟩ (fun hc => none_notMem_of_cut (h 0) (hcreated hc))
      hcurrent fun _ _ hh => by cases hh
    · rintro x ⟨bytes, rfl, htorn, y, hy, hlen⟩
      obtain ⟨v, hv, -⟩ := hs.standing.behind y hy
      exact holds_torn htorn (Nat.le_trans hlen hv.1)
    · intro hi
      rcases hs.beside hi with ⟨whole, hclean, hsort⟩ | hnone
      · have h0 := h 0
        rw [hclean] at h0
        exact .inl ⟨whole, h0.of_clean, hsort⟩
      · exact .inr (none_notMem_of_cut (h 1) hnone)

/-- Every step keeps the invariant, and takes no returned state back. -/
theorem Step.inv (hl : Crypto.Lawful) (hinv : w.Inv password) (h : w.Step password w') :
    w'.Inv password ∧ Ahead w.current w'.current := by
  cases h with
  | create _ hpassword hfates h => exact inv_create hl hinv hpassword hfates h
  | open' _ hpassword hfates h => exact inv_open hinv hpassword hfates h
  | write hhandle hfates h => exact inv_write hl hinv hhandle hfates h
  | close =>
    refine ⟨?_, ahead_refl _⟩
    cases hinv with
    | vacant hv _ hcreated hcurrent => exact .vacant hv rfl hcreated hcurrent
    | stored hs hcreated hcurrent hlive =>
      exact .stored hs hcreated hcurrent fun _ _ hh => by cases hh
  | powerCut h => exact ⟨inv_powerCut hinv h, ahead_refl _⟩

/-! ## Every run keeps it -/

theorem Ahead.trans {x y z : Option Parsed} (h : Ahead x y) (h' : Ahead y z) : Ahead x z := by
  intro c hc
  obtain ⟨c', hc', heq | hlt⟩ := h c hc
  · subst heq
    exact h' c' hc'
  · obtain ⟨c'', hc'', heq | hlt'⟩ := h' c' hc'
    · subst heq
      exact ⟨c'', hc'', .inr hlt⟩
    · exact ⟨c'', hc'', .inr (Nat.lt_trans hlt hlt')⟩

theorem Run.inv (hl : Crypto.Lawful) (h : Run password w w') (hinv : w.Inv password) :
    w'.Inv password ∧ Ahead w.current w'.current := by
  induction h with
  | refl => exact ⟨hinv, ahead_refl _⟩
  | tail _ hstep ih =>
    obtain ⟨hinv', hahead⟩ := ih
    obtain ⟨hinv'', hahead'⟩ := hstep.inv hl hinv'
    exact ⟨hinv'', hahead.trans hahead'⟩

/-- What an open takes. -/
theorem openSlots_takes (hinv : w.Inv password) {answers : Answers} {nonceSeed : Block nonceSeedLen}
    {fates : List SlotFate} {ks : Keystore} {m : SlotMedium}
    (hfates : ∀ f ∈ fates, f.Allowed password)
    (h : openSlots answers ⟨password, nonceSeed⟩ ⟨w.cells, none, false, fates⟩ = (.ok ks, m)) :
    ∃ p, ks.memory = some p ∧ Ahead w.current (some p) ∧
      (w.current = some p ∨ w.inflight = some p ∧ ∀ c, w.current = some c → age c < age p) := by
  cases hinv with
  | vacant hv =>
    have hnow : (w.cells 0).now = none := by
      rw [hv.slot0]
      rfl
    obtain ⟨⟨e, he⟩ | he, -⟩ := openSlots_missing hnow h <;> cases he
  | stored hs _ hcurrent =>
    cases openSlots_end (m := ⟨w.cells, none, false, fates⟩) hs rfl hfates h with
    | short hr => rcases hr with ⟨e, he⟩ | he <;> cases he
    | flushed hr => rcases hr with ⟨e, he⟩ | he <;> cases he
    | @done _ j q hm _ _ _ hq =>
      refine ⟨q, hm, ahead_of_current hcurrent hq, ?_⟩
      rcases hcurrent with ⟨hp, hin⟩ | ⟨hin, hnone, hlt⟩
      · rcases hq with rfl | ⟨hnext, hlt⟩
        · exact .inl hp
        · refine .inr ⟨hin ▸ hnext, fun c hc => ?_⟩
          rw [hp] at hc
          cases hc
          exact hlt
      · rcases hq with rfl | ⟨hnext, -⟩
        · exact .inr ⟨hin, hlt⟩
        · rw [hnone] at hnext
          cases hnext

theorem current_of_live (hinv : w.Inv password) {handle : SlotHandle} {q : Parsed}
    (hhandle : w.handle = some handle) (hm : handle.ks.memory = some q) : w.current = some q := by
  cases hinv with
  | vacant _ hnone =>
    rw [hhandle] at hnone
    cases hnone
  | stored _ _ _ hlive =>
    obtain ⟨-, -, rfl, hcurrent, -⟩ := hlive handle q hhandle hm
    exact hcurrent

end SlotWorld

open SlotWorld in
/-- In every world a run reaches: once `create` has returned, the store opens; whatever opens is
the state of the last call that returned, or the newer one begun since; and it is no older than
any state a handle on the way held. -/
theorem slots_crash_safe (hl : Crypto.Lawful) {password : Bytes} {w₀ w : SlotWorld}
    (hstart : Start password w₀) (hrun : Run password w₀ w) :
    (w.created = true → ∀ nonceSeed, ∃ ks m,
      openSlots .good ⟨password, nonceSeed⟩ ⟨w.cells, none, false, []⟩ = (.ok ks, m)) ∧
    ∀ answers nonceSeed fates ks m, (∀ f ∈ fates, SlotFate.Allowed password f) →
      openSlots answers ⟨password, nonceSeed⟩ ⟨w.cells, none, false, fates⟩ = (.ok ks, m) →
      ∃ p, ks.memory = some p ∧
        (w.current = some p ∨ w.inflight = some p ∧
          ∀ c, w.current = some c → c.generation < p.generation) ∧
        ∀ v handle q, Run password w₀ v → Run password v w → v.handle = some handle →
          handle.ks.memory = some q → p = q ∨ q.generation < p.generation := by
  obtain ⟨hinv, -⟩ := Run.inv hl hrun (inv_of_start hstart)
  refine ⟨fun hcreated nonceSeed => ?_, fun answers nonceSeed fates ks m hfates h => ?_⟩
  · cases hinv with
    | vacant _ _ hnone =>
      rw [hcreated] at hnone
      cases hnone
    | stored hs hpresent => exact openSlots_good hs (hpresent hcreated) rfl nonceSeed
  · obtain ⟨p, hm, hahead, hp⟩ := openSlots_takes hinv hfates h
    refine ⟨p, hm, hp.imp_right fun hin => ⟨hin.1, fun c hc => UInt64.lt_iff_toNat_lt.mpr (hin.2 c hc)⟩,
      fun v handle q hto hfrom hhandle hq => ?_⟩
    obtain ⟨hinv', -⟩ := Run.inv hl hto (inv_of_start hstart)
    obtain ⟨-, hsince⟩ := Run.inv hl hfrom hinv'
    obtain ⟨c, hc, heq | hlt⟩ := (hsince.trans hahead) q (current_of_live hinv' hhandle hq)
    · cases hc
      exact .inl heq
    · cases hc
      exact .inr (UInt64.lt_iff_toNat_lt.mpr hlt)

end

/-! ### A slot left torn -/

section

attribute [local instance] Crypto.plain

open SlotWorld

/-- An empty store, made in an empty directory. -/
def slotFounded : SlotWorld :=
  let (r, m) := createSlots .good ⟨[], .zero saltLen, .zero nonceSeedLen, ⟨8, 1, 1⟩⟩
    ⟨nothing.cells, none, false, []⟩
  nothing.creating r m

/-- A call on the world's handle. -/
def attempting (w : SlotWorld) (op : Op) (fates : List SlotFate) : SlotWorld :=
  match w.handle with
  | none => w
  | some handle =>
    let (r, s) := op.call (⟨handle.ks, ⟨w.cells, handle.newest, handle.vacate, fates⟩⟩ :
      Opened SlotMedium)
    w.writing handle.ks op r s

/-- The same store, with a commit killed in its write and the slot left torn. -/
def slotTorn : SlotWorld :=
  attempting slotFounded (.adoptMaster (.zero seedLen)) [.killed (.torn [])]

theorem run_slotFounded : Run [] nothing slotFounded :=
  .single (@Step.create _ [] nothing .good ⟨[], .zero saltLen, .zero nonceSeedLen, ⟨8, 1, 1⟩⟩ [] _ _
    rfl (.inl rfl) (fun _ h => by cases h) rfl)

theorem created_slotFounded : slotFounded.created = true := rfl

theorem run_attempting {w : SlotWorld} (h : Run [] nothing w) (op : Op) {fates : List SlotFate}
    (hfates : ∀ f ∈ fates, f.Allowed []) : Run [] nothing (attempting w op fates) := by
  unfold attempting
  split
  · exact h
  · next handle hhandle => exact h.tail (.write hhandle hfates rfl)

theorem created_attempting (w : SlotWorld) (op : Op) (fates : List SlotFate) :
    (attempting w op fates).created = w.created := by
  unfold attempting
  split
  · rfl
  · next handle _ =>
    rcases op.call _ with ⟨_ | _ | _, s⟩ <;> rfl

theorem run_slotTorn : Run [] nothing slotTorn := by
  refine run_attempting run_slotFounded _ fun f hf => ?_
  rw [List.mem_singleton.mp hf]
  exact .inr ⟨rfl, fun p h => by cases h⟩

/-- The store left with a slot torn opens. -/
theorem slots_crash_safe_slotTorn : ∃ ks m,
    openSlots .good ⟨[], .zero nonceSeedLen⟩ ⟨slotTorn.cells, none, false, []⟩ = (.ok ks, m) :=
  (slots_crash_safe Crypto.plain_lawful .nothing run_slotTorn).1
    ((created_attempting ..).trans created_slotFounded) (.zero nonceSeedLen)

end

end MochimoWallet.Keystore

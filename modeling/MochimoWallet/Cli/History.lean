import MochimoWallet.Cli.Process
import MochimoWallet.Wallet.InStep

/-!
# A directory's history

A `History` is what outlives every process: a store's directory, the signed images on the pages that
were printed of it, and the entry the ledger has for one of its accounts. Processes come one after the
other, each with any line of arguments, and may be cut short anywhere; their node may be silent, but
of this account it answers what the ledger has. Between them an image that was printed lands where it
spends the address the ledger names, or is undone again. A history is a run of the wallet and its
ledger (`History.Run.tells`): so while the ledger takes back no spend that was settled, no page blames the
account (`never_blamed`), and however much it takes back, no two images on pages are of two transfers
that go from one address (`pages_spend_once`).
-/

namespace MochimoWallet.Cli

open Codec Keystore Session Mesh Wallet

section
variable [Crypto] [Bip39]

structure History where
  disk : Disk
  /-- The signed images that got out of a process, the newest first. -/
  pages : List Bytes
  /-- What the ledger has for the account. -/
  entry : LedgerEntry

namespace History

/-- The wallet between processes, which has handed over what is not recalled. -/
def chain (h : History) : Chain := ⟨⟨h.disk, none, [], []⟩, [], h.entry⟩

/-- One step; `deep` is whether the ledger may take back a spend the wallet has settled. -/
inductive Step (password : Bytes) (tag : Tag) (access : KeyAccess) (deep : Prop) :
    History → History → Prop where
  | process {h : History} {env : Surroundings} {argv : List Text} {m m' : Machine UnixMedium}
      {reply : Reply Empty Ending} (hdisk : m.medium.disk = h.disk) (hfresh : m.said = [])
      (hknows : env.Knows password m) (hrun : runFromArgv env argv m = (reply, m'))
      (honest : Honest tag h.entry m'.node.heard) :
      Step password tag access deep h ⟨m'.medium.disk, (pageOf reply).toList ++ h.pages, h.entry⟩
  /-- With nothing to lose; a temporary file may survive in part. -/
  | powerCut {h : History} {entry temp : Option Bytes}
      (hentry : entry = h.disk.snapshot ∨ entry = h.disk.durable)
      (hkept : World.reading password h.disk.durable = World.reading password h.disk.snapshot) :
      Step password tag access deep h { h with disk := ⟨entry, temp, entry⟩ }
  | paid {h : History} (balance : UInt64) :
      Step password tag access deep h { h with entry := { h.entry with balance } }
  | land {h : History} {wire : Bytes} {tx : Transaction} (balance : UInt64) (hpage : wire ∈ h.pages)
      (hread : Transaction.fromWire wire = .ok tx) (hsrc : tx.srcAddr = h.entry.address) :
      Step password tag access deep h { h with entry := ⟨tx.chgAddr, balance⟩ }
  | undo {h : History} {wire : Bytes} {tx : Transaction} (balance : UInt64) (hpage : wire ∈ h.pages)
      (hread : Transaction.fromWire wire = .ok tx) (hchg : tx.chgAddr = h.entry.address)
      (htag : tagOf tx.srcAddr = tagOf h.entry.address)
      (hback : deep ∨ h.chain.Outstanding password tag access ⟨tx⟩) :
      Step password tag access deep h { h with entry := ⟨tx.srcAddr, balance⟩ }

def Run (password : Bytes) (tag : Tag) (access : KeyAccess) (deep : Prop) : History → History → Prop :=
  Relation.ReflTransGen (Step password tag access deep)

/-- An account to begin with, that nothing was printed of. -/
structure Begins (password : Bytes) (tag : Tag) (access : KeyAccess) (at' : WotsIndex → Address)
    (h : History) : Prop where
  begins : h.chain.Begins password tag access at'
  entrusted : ∀ p, World.reading password h.disk.snapshot = some p → Entrusted p tag access
  pages : h.pages = []

end History

variable {password : Bytes} {tag : Tag} {access : KeyAccess} {at' : WotsIndex → Address}
  {h h' : History} {c c' : Chain} {r : Ratchet.State Digest} {deep : Prop}

/-! ## A history is a run -/

/-- A wallet between processes, and what a history says of it. -/
structure Tells (password : Bytes) (tag : Tag) (access : KeyAccess) (at' : WotsIndex → Address)
    (h : History) (c : Chain) (r : Ratchet.State Digest) : Prop
    extends AtRest password tag access at' c r where
  disk : c.world.disk = h.disk
  entry : c.entry = h.entry
  pages : ∀ wire ∈ h.pages, ∃ signed ∈ c.shipped, signed.tx.CountHeld ∧ signed.wire = wire

omit [Bip39] in
theorem Tells.state (h₁ : Tells password tag access at' h c r) :
    c.world.state password = World.reading password h.disk.snapshot := by
  rw [World.state, h₁.disk]

omit [Bip39] in
/-- What was printed was signed. -/
theorem Tells.printed (h₁ : Tells password tag access at' h c r) {wire : Bytes} {tx : Transaction}
    (hpage : wire ∈ h.pages) (hread : Transaction.fromWire wire = .ok tx) :
    (⟨tx⟩ : SignedTransaction) ∈ c.shipped := by
  obtain ⟨signed, hmem, hheld, rfl⟩ := h₁.pages wire hpage
  rw [SignedTransaction.wire, Transaction.fromWire_toWire hheld] at hread
  cases hread
  exact hmem

omit [Bip39] in
/-- What a run of the wallet leaves, between processes. -/
theorem Tells.run (hl : Crypto.Lawful) (hinj : Function.Injective at')
    (h₁ : Tells password tag access at' h c r) (hrun : Chain.Run password tag access deep c c')
    (hclosed : c'.world.handle = none) (hdisk : c'.world.disk = h'.disk) (hentry : c'.entry = h'.entry)
    (hpages : ∀ wire ∈ h'.pages, ∃ signed ∈ c'.shipped, signed.tx.CountHeld ∧ signed.wire = wire) :
    ∃ c' r', Ratchet.Run deep r r' ∧ Tells password tag access at' h' c' r' := by
  obtain ⟨r', hratchet, htracks⟩ := hrun.tracks hl hinj h₁.tracks
  refine ⟨c', r', hratchet, ⟨htracks, hclosed, fun q hq => ?_⟩, hdisk, hentry, hpages⟩
  obtain ⟨p, slot, hp, -⟩ := h₁.tracks.stands
  obtain ⟨q', hq', hlater⟩ := hrun.later hl hinj h₁.tracks hp
  cases hq.symm.trans hq'
  exact (h₁.entrusted p hp).later hlater

/-- A step of a history is a run of the wallet and its ledger. -/
theorem History.Step.tells (hl : Crypto.Lawful) (hinj : Function.Injective at')
    (hstep : History.Step password tag access deep h h') (h₁ : Tells password tag access at' h c r) :
    ∃ c' r', Ratchet.Run deep r r' ∧ Tells password tag access at' h' c' r' := by
  cases hstep with
  | @process env argv m m' reply hdisk hfresh hknows hrun honest =>
    obtain ⟨p, slot, hp, -⟩ := h₁.tracks.stands
    have hheld : m.medium.disk.snapshot ≠ none := by
      intro hnone
      rw [h₁.state, ← hdisk, hnone] at hp
      cases hp
    obtain ⟨c', hbrings, hclosed⟩ := (process_cases hheld hfresh hrun).brings deep hl hinj
      h₁.toAtRest (hdisk.trans h₁.disk.symm) hknows (h₁.entry.symm ▸ honest)
    have hentry := hbrings.entry.trans h₁.entry
    refine h₁.run hl hinj hbrings.run hclosed hbrings.disk hentry fun wire hmem => ?_
    rcases List.mem_append.mp hmem with hmem | hmem
    · exact hbrings.signed wire (Option.mem_toList.mp hmem)
    · obtain ⟨signed, hsigned, hwire⟩ := h₁.pages wire hmem
      exact ⟨signed, hbrings.shipped hsigned, hwire⟩
  | @powerCut entry temp hentry hkept =>
    have hok : Elsewhere password tag c.world .powerCut := by
      show World.reading password c.world.disk.durable = World.reading password c.world.disk.snapshot
      rw [h₁.disk]
      exact hkept
    have hcut : c.world.Step password .powerCut
        { c.world with disk := ⟨entry, temp, entry⟩, handle := none } := .powerCut (h₁.disk ▸ hentry)
    exact h₁.run hl hinj (.single (.elsewhere hok hcut)) rfl rfl h₁.entry h₁.pages
  | paid balance =>
    exact h₁.run hl hinj (.single (.paid balance)) h₁.closed h₁.disk
      (congrArg (fun e : LedgerEntry => { e with balance }) h₁.entry) h₁.pages
  | land balance hpage hread hsrc =>
    exact h₁.run hl hinj (.single (.land balance (h₁.printed hpage hread) (by rw [h₁.entry]; exact hsrc)))
      h₁.closed h₁.disk rfl h₁.pages
  | @undo wire tx balance hpage hread hchg htag hback =>
    have hback : deep ∨ c.Outstanding password tag access ⟨tx⟩ := by
      refine hback.imp id fun hout => ?_
      obtain ⟨p, slot, pending, key, hp, hrest⟩ := hout
      exact ⟨p, slot, pending, key, h₁.state.trans hp, hrest⟩
    have hundo := Chain.Step.undo balance (h₁.printed hpage hread) (by rw [h₁.entry]; exact hchg)
      (by rw [h₁.entry]; exact htag) hback
    exact h₁.run hl hinj (.single hundo) h₁.closed h₁.disk rfl h₁.pages

/-- A history is a run of the ratchet. -/
theorem History.Run.tells (hl : Crypto.Lawful) (hinj : Function.Injective at')
    (hrun : History.Run password tag access deep h h') (h₁ : Tells password tag access at' h c r) :
    ∃ c' r', Ratchet.Run deep r r' ∧ Tells password tag access at' h' c' r' := by
  induction hrun with
  | refl => exact ⟨c, r, .refl, h₁⟩
  | tail _ hstep ih =>
    obtain ⟨c', r', hratchet, h₂⟩ := ih
    obtain ⟨c'', r'', hratchet', h₃⟩ := hstep.tells hl hinj h₂
    exact ⟨c'', r'', hratchet.trans hratchet', h₃⟩

omit [Bip39] in
theorem History.Begins.tells (hbegins : h.Begins password tag access at') :
    ∃ r, Tells password tag access at' h h.chain r ∧ Ratchet.InStep r := by
  obtain ⟨r, htracks, hinstep⟩ := hbegins.begins.tracks
  refine ⟨r, ⟨⟨htracks, rfl, hbegins.entrusted⟩, rfl, rfl, ?_⟩, hinstep⟩
  rw [hbegins.pages]
  exact fun wire hmem => by cases hmem

/-! ## What a history keeps -/

omit [Bip39] in
/-- A store in step is fair to its account. -/
theorem fair_of_follows {ks : Keystore} {p : Parsed} {slot : Slot} {entry : LedgerEntry}
    (hm : ks.memory = some p) (hent : Entrusted p tag access) (hslot : p.slots.get? tag = some slot)
    (hfollows : Follows at' slot entry) (hat : ∀ i, ks.addressAt tag i access = .ok (at' i))
    (htag : tagOf entry.address = tag) : Fair ks tag ks.master entry := by
  intro a ha scope cancel n entries hentries
  cases ha.symm.trans ((accessFor_eq_ok hm).mpr hent)
  exact hfollows.reconciles hm hslot hat htag hentries

/-- While the ledger takes back no spend that was settled, it names the position the store has, or the
one that is reserved, and no page of the next process blames the account. -/
theorem never_blamed (hl : Crypto.Lawful) (hinj : Function.Injective at')
    (hbegins : h.Begins password tag access at') (hrun : History.Run password tag access False h h') :
    (∃ p slot, World.reading password h'.disk.snapshot = some p ∧ p.slots.get? tag = some slot ∧
      Follows at' slot h'.entry) ∧
    ∀ env argv (m m' : Machine UnixMedium) ending, m.medium.disk = h'.disk → m.said = [] →
      env.Knows password m → runFromArgv env argv m = (.ok ending, m') →
      Honest tag h'.entry m'.node.heard → ∀ d ∈ ending.divergences, d.tag = tag → d.blames = false := by
  obtain ⟨r, h₁, hinstep⟩ := hbegins.tells
  obtain ⟨c, r', hratchet, h₂⟩ := hrun.tells hl hinj h₁
  obtain ⟨p, slot, hp, hstanding⟩ := h₂.tracks.stands
  have hfollows := h₂.tracks.follows (hinstep.run hratchet) hstanding
  rw [h₂.entry] at hfollows
  rw [h₂.state] at hp
  refine ⟨⟨p, slot, hp, hstanding.hslot, hfollows⟩, ?_⟩
  intro env argv m m' ending hdisk hfresh hknows hrun honest
  have hheld : m.medium.disk.snapshot ≠ none := by
    intro hnone
    rw [← hdisk, hnone] at hp
    cases hp
  have hend := process_cases hheld hfresh hrun
  generalize hreply : (Reply.ok ending : Reply Empty Ending) = reply at hend
  cases hend with
  | still _ _ hreports =>
    cases hreply
    rw [hreports]
    exact fun d hd => by cases hd
  | shut _ _ hreports =>
    cases hreply
    rw [hreports]
    exact fun d hd => by cases hd
  | @ran line nonceSeed ks opened command r'' t t' htyped hopen hdesk hdecide hleft hheard =>
    obtain ⟨q, hstep, htracks, hm, hent⟩ := h₂.opens False hl (hdisk.trans h₂.disk.symm)
      (hknows line nonceSeed ks opened htyped hopen) hopen
    rcases r'' with d | ⟨⟨⟩⟩ | _ <;> cases hreply
    obtain ⟨q', slot', hq', hstanding'⟩ := htracks.stands
    cases hq'.symm.trans (htracks.sound ks q rfl hm).2
    have hfollows := htracks.follows (hinstep.run hratchet) hstanding'
    have hfair := fair_of_follows hm hent hstanding'.hslot hfollows (htracks.addressAt rfl hm)
      htracks.tag_entry
    have hstore : t.store.ks = ks := by rw [hdesk]
    subst hstore
    have honest : Honest tag c.entry t'.session.node.heard := by
      rw [h₂.entry, ← hheard]
      exact honest
    exact spares_decide env.read hm hfair hdecide honest

/-- However much the ledger takes back, two images that were printed and spend one address of the account
are of one transfer, unless their hashes collide. -/
theorem pages_spend_once (hl : Crypto.Lawful) (hinj : Function.Injective at')
    (hbegins : h.Begins password tag access at') (hrun : History.Run password tag access deep h h')
    {wire wire' : Bytes} {tx tx' : Transaction} (hpage : wire ∈ h'.pages) (hpage' : wire' ∈ h'.pages)
    (hread : Transaction.fromWire wire = .ok tx) (hread' : Transaction.fromWire wire' = .ok tx')
    (htag : tagOf tx.srcAddr = tag) (hsrc : tx'.srcAddr = tx.srcAddr)
    (hapart : Crypto.Sha256Apart tx.signedPrefix tx'.signedPrefix) : tx'.toTransfer = tx.toTransfer := by
  obtain ⟨r, h₁, -⟩ := hbegins.tells
  obtain ⟨c, r', -, h₂⟩ := hrun.tells hl hinj h₁
  obtain ⟨i, j, hi, -, hati, -⟩ := h₂.tracks.shipped _ (h₂.printed hpage hread) htag
  obtain ⟨i', j', hi', -, hati', -⟩ := h₂.tracks.shipped _ (h₂.printed hpage' hread') (hsrc ▸ htag)
  obtain rfl := hinj (hati.trans (hsrc.symm.trans hati'.symm))
  exact (signedPrefix_inj (hapart (h₂.tracks.sane.once _ _ _ hi (.inl hi')))).symm

end

/-! ## A spend that was printed, and what comes of it -/

section

attribute [local instance] Crypto.numbering numbered

/-- A terminal where the empty password is typed. -/
def typing : Terminal := ⟨fun _ _ => .ok (), fun _ _ => .ok [], fun _ _ => .ok []⟩

def around : Surroundings where
  readToString := fun _ => .error []
  acquire := .ok typing
  entropy := .error []
  nonceSeed := .ok (.zero nonceSeedLen)
  looked := true
  answers := .good
  display := fun _ => []
  read := fun _ => none

/-- A directory with a store, and a node that answers. -/
def standing (disk : Disk) (entries : List (Except Error LedgerEntry)) : Machine UnixMedium :=
  ⟨⟨disk, [], []⟩, [], answering entries, ⟨[], []⟩, []⟩

/-- A process on that directory and that node. -/
def lineOf (words : List Text) : List Text :=
  ["--dir".toList, "store".toList, "--node".toList, "https://node".toList] ++ words

def shownTag (tag : Tag) : Text :=
  match tagToBase58 tag with
  | .ok text => text
  | .error _ => []

/-- Whom the spend is to. -/
def paidTag : Tag := ⟨.replicate addrTagLen 1, by simp⟩

def sending : List Text := lineOf ["send".toList, shownTag lastTag, shownTag paidTag, "100".toList]

def resigning : List Text := lineOf ["resign".toList, shownTag lastTag, shownTag paidTag, "100".toList]

def settling : List Text := lineOf ["settle".toList, shownTag lastTag]

/-- A process that sends; and after it, one that finds that the spend has landed, or one that is asked
for it again. -/
structure Outing where
  dir : Text
  node : Option Text
  url : Text
  spend : Spend
  ks : Keystore
  opened : UnixMedium
  addresses : SpendAddresses
  master : Option Secret
  seed : Secret
  part : Partition
  entered : Session UnixMedium
  plan : SpendPlan
  planned : Session UnixMedium
  receipt : AdvanceReceipt
  store : Opened UnixMedium
  ending : Ending
  after : Machine UnixMedium
  again : Invocation
  resumed : Keystore
  reopened : UnixMedium
  later : Partition
  reentered : Session UnixMedium

def outing : Option Outing :=
  match parse around.readToString sending,
    openWith .good ⟨[], .zero nonceSeedLen⟩ ⟨lastFounded.disk, [], []⟩ with
  | .ok (.run ⟨dir, node, .send spend⟩), (.ok ks, opened) => do
    let url ← (node.elim (.ok []) baseUrl).toOption
    let addresses ← (ks.spendAddresses lastTag (.master sevens)).toOption
    let master ← ks.masterSeed.toOption
    match keyAccess ks lastTag master with
    | .ok (.master seed) =>
      let entry : LedgerEntry := ⟨addresses.source, 1000⟩
      match Wallet.openAsking master .never
        ⟨⟨ks, opened⟩, answering [.ok entry, .ok entry, .ok entry]⟩ with
      | (.ok part, entered) =>
        match planSpend part spend (.master sevens) entered with
        | (.ok plan, planned) => do
          let _ ← (Wallet.checkPlan plan addresses).toOption
          match persistAdvance plan.tag plan.digest plan.figures planned.store with
          | (.ok receipt, store) =>
            let landed : LedgerEntry := ⟨addresses.change, 400⟩
            match runFromArgv around settling (standing store.medium.disk [.ok landed, .ok landed]) with
            | (.ok ending, after) =>
              match parse around.readToString resigning,
                openWith .good ⟨[], .zero nonceSeedLen⟩ ⟨store.medium.disk, [], []⟩ with
              | .ok (.run again), (.ok resumed, reopened) =>
                match Wallet.openAsking resumed.master .never
                  ⟨⟨resumed, reopened⟩, answering [.ok entry, .ok entry, .ok entry]⟩ with
                | (.ok later, reentered) => some ⟨dir, node, url, spend, ks, opened, addresses, master, seed,
                  part, entered, plan, planned, receipt, store, ending, after, again, resumed, reopened,
                  later, reentered⟩
                | _ => none
              | _, _ => none
            | _ => none
          | _ => none
        | _ => none
      | _ => none
    | _ => none
  | _, _ => none

/-- The ledger's entry for the account, before the spend and after it. -/
def Outing.entry (x : Outing) : LedgerEntry := ⟨x.addresses.source, 1000⟩

def Outing.landed (x : Outing) : LedgerEntry := ⟨x.addresses.change, 400⟩

/-- What the processes go through. -/
structure Outing.Went (x : Outing) : Prop where
  hparse : parse around.readToString sending = .ok (.run ⟨x.dir, x.node, .send x.spend⟩)
  hurl : x.node.elim (.ok []) baseUrl = .ok x.url
  hopen : openWith .good ⟨[], .zero nonceSeedLen⟩ ⟨lastFounded.disk, [], []⟩ = (.ok x.ks, x.opened)
  hmaster : x.ks.masterSeed = .ok x.master
  haccess : keyAccess x.ks lastTag x.master = .ok (.master x.seed)
  hseed : x.seed = sevens
  haddresses : x.ks.spendAddresses lastTag (.master sevens) = .ok x.addresses
  hopening : Wallet.openAsking x.master .never
    ⟨⟨x.ks, x.opened⟩, answering [.ok x.entry, .ok x.entry, .ok x.entry]⟩ = (.ok x.part, x.entered)
  hclear : x.part.divergenceFor lastTag = none
  hplanned : planSpend x.part x.spend (.master sevens) x.entered = (.ok x.plan, x.planned)
  hspend : x.spend.tag = lastTag
  htag : x.plan.tag = lastTag
  hplan : Wallet.checkPlan x.plan x.addresses = .ok ()
  hblk : x.plan.blkToLive = 0
  hbalance : x.plan.balance = 1000
  hentries : x.planned.node.entries = [.ok x.entry]
  hheard : ∀ e ∈ x.planned.node.heard, e.2 = x.entry
  hcall : persistAdvance x.plan.tag x.plan.digest x.plan.figures x.planned.store = (.ok x.receipt, x.store)
  hsettle : runFromArgv around settling (standing x.store.medium.disk [.ok x.landed, .ok x.landed]) =
    (.ok x.ending, x.after)
  hlanded : ∀ e ∈ x.after.node.heard, e.2 = x.landed
  hstands : lastFounded.handle.bind (fun ks => (ks.spendAddresses lastTag (.master sevens)).toOption) =
    some x.addresses
  hagain : parse around.readToString resigning = .ok (.run x.again)
  hsame : x.again = ⟨x.dir, x.node, .resign x.spend⟩
  hreopen : openWith .good ⟨[], .zero nonceSeedLen⟩ ⟨x.store.medium.disk, [], []⟩ = (.ok x.resumed, x.reopened)
  hreopening : Wallet.openAsking x.resumed.master .never
    ⟨⟨x.resumed, x.reopened⟩, answering [.ok x.entry, .ok x.entry, .ok x.entry]⟩ = (.ok x.later, x.reentered)
  hclear' : x.later.divergenceFor lastTag = none
  hentries' : x.reentered.node.entries = [.ok x.entry, .ok x.entry]
  hheard' : ∀ e ∈ x.reentered.node.heard, e.2 = x.entry

theorem outing_went : ∃ x : Outing, x.Went := by
  have hrun : (outing.map fun x => decide (x.seed = sevens ∧ x.part.divergenceFor lastTag = none ∧
      x.spend.tag = lastTag ∧ x.plan.tag = lastTag ∧ x.plan.blkToLive = 0 ∧ x.plan.balance = 1000 ∧
      x.planned.node.entries = [.ok x.entry] ∧ (∀ e ∈ x.planned.node.heard, e.2 = x.entry) ∧
      (∀ e ∈ x.after.node.heard, e.2 = x.landed) ∧
      lastFounded.handle.bind (fun ks => (ks.spendAddresses lastTag (.master sevens)).toOption) =
        some x.addresses ∧ x.again = ⟨x.dir, x.node, .resign x.spend⟩ ∧
      x.later.divergenceFor lastTag = none ∧ x.reentered.node.entries = [.ok x.entry, .ok x.entry] ∧
      ∀ e ∈ x.reentered.node.heard, e.2 = x.entry)) = some true := by
    unfold outing lastFounded
    decide +kernel
  obtain ⟨x, hx, hchecks⟩ := Option.map_eq_some_iff.mp hrun
  obtain ⟨hseed, hclear, hspend, htag, hblk, hbalance, hentries, hheard, hlanded, hstands, hsame, hclear',
    hentries', hheard'⟩ := of_decide_eq_true hchecks
  unfold outing at hx
  split at hx
  · next dir node spend ks opened hparse hopen =>
    obtain ⟨url, hurl, hx⟩ := Option.bind_eq_some_iff.mp hx
    obtain ⟨addresses, haddresses, hx⟩ := Option.bind_eq_some_iff.mp hx
    obtain ⟨master, hmaster, hx⟩ := Option.bind_eq_some_iff.mp hx
    dsimp only at hx
    split at hx
    · next seed haccess =>
      split at hx
      · next part entered hopening =>
        split at hx
        · next plan planned hplanned =>
          obtain ⟨⟨⟩, hplan, hx⟩ := Option.bind_eq_some_iff.mp hx
          split at hx
          · next receipt store hcall =>
            split at hx
            · next ending after hsettle =>
              split at hx
              · next again resumed reopened hagain hreopen =>
                split at hx
                · next later reentered hreopening =>
                  obtain rfl := Option.some.inj hx
                  exact ⟨_, hparse, toOption_eq_some.mp hurl, hopen, toOption_eq_some.mp hmaster, haccess,
                    hseed, toOption_eq_some.mp haddresses, hopening, hclear, hplanned, hspend, htag,
                    toOption_eq_some.mp hplan, hblk, hbalance, hentries, hheard, hcall, hsettle, hlanded,
                    hstands, hagain, hsame, hreopen, hreopening, hclear', hentries', hheard'⟩
                · cases hx
              · cases hx
            · cases hx
          · cases hx
        · cases hx
      · cases hx
    · cases hx
  · cases hx

/-- The account, before anything is printed of it. -/
def Outing.start (x : Outing) : History := ⟨lastFounded.disk, [], x.entry⟩

/-- The spend is printed, and lands. -/
def Outing.printed (x : Outing) (signed : SignedTransaction) : History :=
  ⟨x.store.medium.disk, [signed.wire], x.entry⟩

/-- The next process prints it again. -/
def Outing.reprinted (x : Outing) (signed : SignedTransaction) : History :=
  ⟨x.reopened.disk, [signed.wire, signed.wire], x.entry⟩

def Outing.settled (x : Outing) (signed : SignedTransaction) : History :=
  ⟨x.after.medium.disk, (pageOf (.ok x.ending)).toList ++ [signed.wire], x.landed⟩

theorem around_knows (m : Machine UnixMedium) : around.Knows [] m := by
  rintro line nonceSeed ks opened ⟨term, hterm, hline⟩ -
  cases hterm
  cases hline
  rfl

theorem Outing.Went.begins {x : Outing} (hx : x.Went) :
    x.start.Begins [] lastTag (.master sevens) (derivedAddressAt sevens 0xffffffff) := by
  obtain ⟨y, hy⟩ := passed_went
  have haddresses : y.addresses = x.addresses := by
    have hstands := hx.hstands
    rw [hy.hks, Option.bind_some, hy.haddresses] at hstands
    exact Option.some.inj hstands
  obtain ⟨-, ⟨p, slot, hp, hslot, hpending, hentry, hkeys⟩, -⟩ := hy.begins
  have hp : World.reading [] lastFounded.disk.snapshot = some p := hp
  refine ⟨⟨World.sound_of_closed rfl, ⟨p, slot, hp, hslot, hpending, ?_, hkeys⟩, rfl⟩, ?_, rfl⟩
  · rw [← hentry]
    show x.addresses.source = y.addresses.source
    rw [haddresses]
  · intro q hq
    cases hp.symm.trans hq
    obtain ⟨q, hm, hq⟩ := reading_of_open hx.hopen
    cases hp.symm.trans hq
    have haccess := keyAccess_eq_ok.mp hx.haccess
    rw [masterSeed_eq_ok hx.hmaster, hx.hseed] at haccess
    exact (accessFor_eq_ok hm).mp haccess

/-- A process that was asked to spend, and printed an image, is a step. -/
theorem History.Step.prints (h : History) (deep : Prop) {entries : List (Except Error LedgerEntry)}
    {argv : List Text} {dir url : Text} {node : Option Text} {command : Command} {spend : Spend}
    {ks : Keystore} {opened : UnixMedium} {d : Command.Decided} {t' : Desk UnixMedium} {wire : Bytes}
    (hparse : parse around.readToString argv = .ok (.run ⟨dir, node, command⟩))
    (hspends : command = .send spend ∨ command = .resign spend) (hurl : node.elim (.ok []) baseUrl = .ok url)
    (hopen : openWith .good ⟨[], .zero nonceSeedLen⟩ ⟨h.disk, [], []⟩ = (.ok ks, opened))
    (hdecide : command.decide (ε := Empty) around.read
      ({ standing h.disk entries with medium := opened }.desk ks) = (.ok d, t'))
    (hpage : d.outcome.signed? = some wire) (honest : Honest lastTag h.entry t'.session.node.heard) :
    History.Step [] lastTag (.master sevens) deep h ⟨t'.store.medium.disk, wire :: h.pages, h.entry⟩ := by
  obtain ⟨said, hrun⟩ : ∃ said, runOnStore around dir command (standing h.disk entries) =
      (.ok (.decided d), { standing h.disk entries with said }.left t') :=
    runOnStore_of rfl rfl rfl hopen hdecide
  have hstep : History.Step [] lastTag (.master sevens) deep h
      ⟨t'.store.medium.disk, (pageOf (.ok (.decided d))).toList ++ h.pages, h.entry⟩ :=
    .process rfl rfl (around_knows _) (runFromArgv_spend hparse hspends hurl hrun) honest
  have hpages : pageOf (.ok (.decided d)) = some wire := hpage
  rw [hpages] at hstep
  exact hstep

theorem Outing.Went.planned_store {x : Outing} (hx : x.Went) : x.planned.store = ⟨x.ks, x.opened⟩ :=
  (quiet_planSpend.keeps hx.hplanned).1.trans (Wallet.quiet_openAsking.keeps hx.hopening).1

/-- The spend is signed. -/
theorem Outing.Went.signs {x : Outing} (hx : x.Went) : ∃ signed w,
    Wallet.reserveAndSign x.part x.plan (.master sevens) x.planned = (.ok signed, w) ∧ w.store = x.store := by
  have haddresses : x.planned.store.ks.spendAddresses x.plan.tag (.master sevens) = .ok x.addresses := by
    rw [hx.planned_store, hx.htag]
    exact hx.haddresses
  obtain ⟨-, hsource, -⟩ := checkPlan_eq_ok.mp hx.hplan
  have hentry : checkEntry x.plan x.addresses x.entry = .ok () :=
    checkEntry_eq_ok.mpr ⟨rfl, hx.hbalance.symm⟩
  exact reserveAndSign_ok (by rw [hx.htag]; exact hx.hclear) haddresses hx.hplan hx.hblk hx.hentries
    (congrArg tagOf hsource) hentry hx.hcall

section
variable {x : Outing} {signed : SignedTransaction} {w : Session UnixMedium}

/-- What was signed. -/
theorem Outing.Went.carries (hx : x.Went)
    (hsigned : Wallet.reserveAndSign x.part x.plan (.master sevens) x.planned = (.ok signed, w)) :
    signed.tx.CountHeld ∧ signed.tx.srcAddr = x.addresses.source ∧
      signed.tx.chgAddr = x.addresses.change ∧ tagOf signed.tx.srcAddr = lastTag := by
  obtain ⟨-, hsource, hchange⟩ := checkPlan_eq_ok.mp hx.hplan
  obtain ⟨p, slot, key, change, -, hreserved⟩ := reserved_of_signed hsigned
  obtain ⟨hsrc, hchg, -⟩ := of_attached hreserved.hattached
  exact ⟨countHeld_of_attach hreserved.hattached, hsrc.trans hsource.symm, hchg.trans hchange.symm,
    (congrArg tagOf hsrc).trans hx.htag⟩

/-- The first process prints the spend. -/
theorem Outing.Went.prints (hx : x.Went) (deep : Prop)
    (hsigned : Wallet.reserveAndSign x.part x.plan (.master sevens) x.planned = (.ok signed, w))
    (hkept : w.store = x.store) :
    History.Step [] lastTag (.master sevens) deep x.start (x.printed signed) := by
  let m := standing lastFounded.disk [.ok x.entry, .ok x.entry, .ok x.entry]
  have hopened : x.entered.store = ⟨x.ks, x.opened⟩ := (Wallet.quiet_openAsking.keeps hx.hopening).1
  have hplanned : x.planned.store = x.entered.store := (quiet_planSpend.keeps hx.hplanned).1
  have haddresses : x.planned.store.ks.spendAddresses x.plan.tag (.master sevens) = .ok x.addresses := by
    rw [hx.planned_store, hx.htag]
    exact hx.haddresses
  let t : Desk UnixMedium := { m with medium := x.opened }.desk x.ks
  let u : Desk UnixMedium := { t with posting := { t.posting with session := x.entered } }
  have haccess : keyAccess u.store.ks x.spend.tag x.master = .ok (.master sevens) := by
    rw [Desk.store, Desk.session, hopened, hx.hspend, hx.haccess, hx.hseed]
  obtain ⟨said, t', upgraded, hcall, hstore, hheard⟩ :=
    cmdSend_of (t := u) haccess hx.hplanned hplanned hsigned
  obtain ⟨o, hdecide, hpage⟩ : ∃ o, (Command.send x.spend).decide (ε := Empty) around.read t =
      (.ok ⟨x.part.diverged, o⟩, t') ∧ o.signed? = some signed.wire := by
    have hmaster : t.session.store.ks.masterSeed = .ok x.master := hx.hmaster
    have hclear : x.part.divergenceFor x.spend.tag = none := by
      rw [hx.hspend]
      exact hx.hclear
    refine ⟨.sent ⟨x.spend.tag, x.plan.dsts, x.plan.blkToLive, signed.wire, said⟩ x.plan.sendTotal
      x.plan.feeTotal x.plan.changeTotal upgraded, ?_, rfl⟩
    unfold Command.decide
    rw [Call.get_bind, hmaster]
    exact openAndDecide_of hx.hopening hclear hcall
  have honest : Honest lastTag x.start.entry t'.session.node.heard := by
    intro entry hmem
    rw [hheard, heard_of_signed hsigned haddresses, hx.hbalance] at hmem
    rcases List.mem_cons.mp hmem with heq | hmem
    · exact (Prod.mk.inj heq).2
    · exact hx.hheard _ hmem
  have hstep := History.Step.prints x.start deep hx.hparse (.inl rfl) hx.hurl hx.hopen hdecide hpage honest
  rw [hstore.trans hkept] at hstep
  exact hstep

/-- The store the next process opens is the one the first left. -/
theorem Outing.Went.resumes (hx : x.Went) {p : Parsed} (hm : x.store.ks.memory = some p) :
    x.resumed.memory = some p := by
  let closed : World := ⟨lastFounded.disk, none, [], []⟩
  let opened : World := ⟨x.opened.disk, some x.ks, [], []⟩
  let written : World := ⟨x.store.medium.disk, some x.store.ks, [x.receipt], []⟩
  have hopens : closed.Step [] .open' opened := .open' (w := closed) rfl (.inl rfl) hx.hopen
  have hwrites : opened.Step [] (.write (.persistAdvance x.plan.tag x.plan.digest x.plan.figures)) written :=
    .write (w := opened) rfl (persistAdvance_call (hx.planned_store ▸ hx.hcall))
  have hsound : written.Sound [] := hwrites.sound Crypto.numbering_lawful
    (hopens.sound Crypto.numbering_lawful (World.sound_of_closed rfl))
  have hstate : World.reading [] x.store.medium.disk.snapshot = some p := (hsound _ p rfl hm).2
  obtain ⟨q, hq, hread⟩ := reading_of_open hx.hreopen
  cases hread.symm.trans hstate
  exact hq

/-- Asked for it again before it lands, the next process signs what was signed. -/
theorem Outing.Went.resigns (hx : x.Went)
    (hsigned : Wallet.reserveAndSign x.part x.plan (.master sevens) x.planned = (.ok signed, w))
    (hkept : w.store = x.store) : ∃ dsts v v', resignDestinations x.spend x.reentered = (.ok dsts, v) ∧
      Wallet.resignPending x.later x.spend.tag (.master sevens) dsts x.spend.feeTotal x.spend.blkToLive v =
        (.ok signed, v') ∧
      v'.store = ⟨x.resumed, x.reopened⟩ ∧ Honest lastTag x.entry v'.node.heard := by
  obtain ⟨p, slot, key, change, hp, hreserved⟩ := reserved_of_signed hsigned
  have hm := hx.resumes (hkept ▸ hp)
  have hreopened : x.reentered.store = ⟨x.resumed, x.reopened⟩ :=
    (Wallet.quiet_openAsking.keeps hx.hreopening).1
  -- What is asked for is what was planned, and the ledger is as it was.
  obtain ⟨addresses, entry, amount, -, hnew, hamount⟩ := planSpend_made hx.hplanned
  obtain ⟨-, -, -, -, hfee, hblk, hbalance, hdsts, -⟩ := PlanFields.build_eq_ok (SpendPlan.new_eq_ok.mp hnew)
  obtain ⟨-, hsource, -⟩ := checkPlan_eq_ok.mp hx.hplan
  have hentry : x.entry = ⟨x.plan.srcAddr, x.plan.balance⟩ := by
    rw [Outing.entry, hsource, hx.hbalance]
  have htag : tagOf x.entry.address = x.spend.tag := by
    rw [hx.hspend, ← hx.htag, hentry]
    rfl
  obtain ⟨v, hasks, hstore, hheard, rest, hrest⟩ := resignDestinations_of hamount
    (hx.hbalance.symm.trans hbalance) htag hx.hentries'
  have hperm : (spendDestinations x.spend amount).Perm x.plan.dsts := by
    rw [hdsts]
    exact (sortDsts_perm_self _).symm
  have hagain := hreserved.resigns (s := v) .refl (by rw [hstore, hreopened]; exact hm)
    ⟨slot, _, hreserved.hslot, hreserved.hpending, rfl⟩ (hx.htag ▸ hx.hclear') hperm (by rw [hrest, hentry])
  rw [hx.htag, ← hx.hspend, hfee, hblk] at hagain
  refine ⟨_, v, _, hasks, hagain, hstore.trans hreopened, fun entry hmem => ?_⟩
  rcases List.mem_cons.mp hmem with heq | hmem
  · rw [(Prod.mk.inj heq).2, hentry]
  rcases List.mem_cons.mp (hheard hmem) with heq | hmem
  · exact (Prod.mk.inj heq).2
  · exact hx.hheard' _ hmem

/-- The next process has the account's keys from the master, as the first had. -/
theorem Outing.Went.entrusted (hx : x.Went)
    (hsigned : Wallet.reserveAndSign x.part x.plan (.master sevens) x.planned = (.ok signed, w))
    {p : Parsed} (hp : w.store.ks.memory = some p) (hm : x.resumed.memory = some p) :
    keyAccess x.resumed x.spend.tag x.resumed.master = .ok (.master sevens) := by
  obtain ⟨before, after, hbefore, hafter, hlater⟩ := later_of_signed hsigned
  cases hafter.symm.trans hp
  have haccess := keyAccess_eq_ok.mp hx.haccess
  rw [masterSeed_eq_ok hx.hmaster, hx.hseed] at haccess
  rw [hx.hspend]
  exact keyAccess_eq_ok.mpr (accessFor_later (by rw [← hbefore, hx.planned_store]) hm hlater haccess)

/-- It prints the same bytes. -/
theorem Outing.Went.reprints (hx : x.Went) (deep : Prop)
    (hsigned : Wallet.reserveAndSign x.part x.plan (.master sevens) x.planned = (.ok signed, w))
    (hkept : w.store = x.store) :
    History.Step [] lastTag (.master sevens) deep (x.printed signed) (x.reprinted signed) := by
  let m := standing x.store.medium.disk [.ok x.entry, .ok x.entry, .ok x.entry]
  obtain ⟨p, slot, key, change, hp, hreserved⟩ := reserved_of_signed hsigned
  have hm := hx.resumes (hkept ▸ hp)
  obtain ⟨dsts, v, v', hasks, hagain, hleft, honest⟩ := hx.resigns hsigned hkept
  let t : Desk UnixMedium := { m with medium := x.reopened }.desk x.resumed
  let u : Desk UnixMedium := { t with posting := { t.posting with session := x.reentered } }
  have haccess : keyAccess u.store.ks x.spend.tag x.resumed.master = .ok (.master sevens) := by
    rw [Desk.store, Desk.session, (Wallet.quiet_openAsking.keeps hx.hreopening).1]
    exact hx.entrusted hsigned hp hm
  obtain ⟨said, t', hcall, ⟨hstore, hheard⟩, -, -⟩ := cmdResign_of (t := u) haccess hasks hagain
    (countHeld_of_attach hreserved.hattached)
  obtain ⟨o, hdecide, hpage⟩ : ∃ o, (Command.resign x.spend).decide (ε := Empty) around.read t =
      (.ok ⟨x.later.diverged, o⟩, t') ∧ o.signed? = some signed.wire := by
    have hmaster : t.session.store.ks.masterSeed = .ok x.resumed.master := by
      show x.resumed.masterSeed = _
      rw [masterSeed, live_of_memory hm]
      rfl
    have hclear : x.later.divergenceFor x.spend.tag = none := by
      rw [hx.hspend]
      exact hx.hclear'
    refine ⟨.resigned ⟨x.spend.tag, sortDsts dsts, x.spend.blkToLive, signed.wire, said⟩, ?_, rfl⟩
    unfold Command.decide
    rw [Call.get_bind, hmaster]
    exact openAndDecide_of hx.hreopening hclear hcall
  have hstep := History.Step.prints (x.printed signed) deep (hx.hsame ▸ hx.hagain) (.inr rfl) hx.hurl
    hx.hreopen hdecide hpage (hheard ▸ honest)
  rw [hstore.trans hleft] at hstep
  exact hstep

end

/-- It lands, and the next process settles it. -/
theorem Outing.Went.runs {x : Outing} (hx : x.Went) (deep : Prop) : ∃ signed,
    History.Run [] lastTag (.master sevens) deep x.start (x.settled signed) := by
  obtain ⟨signed, w, hsigned, hkept⟩ := hx.signs
  obtain ⟨hheld, hsrc, hchg, -⟩ := hx.carries hsigned
  have hland : History.Step [] lastTag (.master sevens) deep (x.printed signed)
      { x.printed signed with entry := ⟨signed.tx.chgAddr, 400⟩ } :=
    .land 400 List.mem_cons_self (Transaction.fromWire_toWire hheld) hsrc
  rw [hchg] at hland
  have hsettles : History.Step [] lastTag (.master sevens) deep
      { x.printed signed with entry := x.landed } (x.settled signed) :=
    .process rfl rfl (around_knows _) hx.hsettle fun entry hmem => hx.hlanded _ hmem
  exact ⟨signed, .tail (.tail (.single (hx.prints deep hsigned hkept)) hland) hsettles⟩

/-- A spend is printed, lands and is settled, and the account is followed. -/
theorem never_blamed_outing : ∃ (h h' : History) (p : Parsed) (slot : Slot),
    h.Begins [] lastTag (.master sevens) (derivedAddressAt sevens 0xffffffff) ∧
      History.Run [] lastTag (.master sevens) False h h' ∧ h'.pages ≠ [] ∧
      World.reading [] h'.disk.snapshot = some p ∧ p.slots.get? lastTag = some slot ∧
      Follows (derivedAddressAt sevens 0xffffffff) slot h'.entry := by
  obtain ⟨x, hx⟩ := outing_went
  obtain ⟨signed, hrun⟩ := hx.runs False
  obtain ⟨⟨p, slot, hp, hslot, hfollows⟩, -⟩ := never_blamed Crypto.numbering_lawful
    (derivedAddressAt_injective sevens) hx.begins hrun
  exact ⟨x.start, x.settled signed, p, slot, hx.begins, hrun,
    List.append_ne_nil_of_right_ne_nil _ (List.cons_ne_nil _ _), hp, hslot, hfollows⟩

/-- A page of a `send` and a page of the `resign` after it are of one transfer. -/
theorem pages_spend_once_outing : ∃ (h h' : History) (wire wire' : Bytes) (tx tx' : Transaction),
    h.Begins [] lastTag (.master sevens) (derivedAddressAt sevens 0xffffffff) ∧
      History.Run [] lastTag (.master sevens) True h h' ∧ h'.pages = [wire', wire] ∧
      Transaction.fromWire wire = .ok tx ∧ Transaction.fromWire wire' = .ok tx' ∧
      tagOf tx.srcAddr = lastTag ∧ tx'.toTransfer = tx.toTransfer := by
  obtain ⟨x, hx⟩ := outing_went
  obtain ⟨signed, w, hsigned, hkept⟩ := hx.signs
  obtain ⟨hheld, -, -, htag⟩ := hx.carries hsigned
  have hrun : History.Run [] lastTag (.master sevens) True x.start (x.reprinted signed) :=
    .tail (.single (hx.prints True hsigned hkept)) (hx.reprints True hsigned hkept)
  have hread : Transaction.fromWire signed.wire = .ok signed.tx := Transaction.fromWire_toWire hheld
  have hpage : signed.wire ∈ (x.reprinted signed).pages := List.mem_cons_self
  exact ⟨x.start, x.reprinted signed, _, _, _, _, hx.begins, hrun, rfl, hread, hread, htag,
    pages_spend_once Crypto.numbering_lawful (derivedAddressAt_injective sevens) hx.begins hrun hpage hpage
      hread hread htag rfl fun _ => rfl⟩

end

end MochimoWallet.Cli

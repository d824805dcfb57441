import MochimoWallet.Cli.CreateRefused
import MochimoWallet.Cli.Does
import MochimoWallet.Cli.Heard
import MochimoWallet.Cli.Program

/-!
# What a process does to a store

A process that finds a store in its directory leaves it, or opens it and runs one command on it, and
lets it go (`process_cases`). Where the password it is given is the store's, that is a run of the
wallet (`ProcessEnd.brings`), and the image on its page is of a transaction that was signed in it.
-/

namespace MochimoWallet.Cli

open Codec Keystore Session Mesh Wallet
open Command (Decided)

section
variable [Crypto] {password : Bytes} {tag : Tag} {access : KeyAccess} {at' : WotsIndex → Address}
  {c : Chain} {r : Ratchet.State Digest} {deep : Prop} {ks : Keystore} {p : Parsed}

/-! ## A command -/

/-- What a run of the wallet brings about: what is on the directory, and what was signed. -/
structure Brings (password : Bytes) (tag : Tag) (access : KeyAccess) (deep : Prop) (c c' : Chain)
    (disk : Disk) (image : Option Bytes) : Prop where
  run : Chain.Run password tag access deep c c'
  disk : c'.world.disk = disk
  entry : c'.entry = c.entry
  shipped : c.shipped ⊆ c'.shipped
  signed : ∀ wire, image = some wire → ∃ signed ∈ c'.shipped, signed.tx.CountHeld ∧ signed.wire = wire

/-- The image on a command's page. -/
def imageOn : Reply Empty Command.Outcome → Option Bytes
  | .ok o => o.signed?
  | _ => none

omit [Crypto] in
theorem imageOn_eq_none {out : Reply Empty Command.Outcome} (h : ∀ o, out = .ok o → o.signed? = none) :
    imageOn out = none := by
  rcases out with o | ⟨⟨⟩⟩ | _
  · exact h o rfl
  · rfl

variable (deep) in
/-- A command on an opened store is a run of the wallet. -/
theorem Does.brings (hinj : Function.Injective at')
    (h : Tracks password tag access at' c r) (hks : c.world.handle = some ks) (hm : ks.memory = some p)
    (hent : Entrusted p tag access) {t t' : Desk UnixMedium} {out : Reply Empty Command.Outcome}
    (hopened : t.store.ks = ks) (hdisk : t.store.medium.disk = c.world.disk) (hdoes : Does t t' out)
    (honest : Honest tag c.entry t'.session.node.heard) :
    ∃ c', Brings password tag access deep c c' t'.store.medium.disk (imageOn out) := by
  obtain ⟨fates, calls, hstore⟩ : ∃ fates calls, t.store = ⟨ks, ⟨c.world.disk, fates, calls⟩⟩ := by
    refine ⟨t.store.medium.fates, t.store.medium.calls, ?_⟩
    rw [← hopened, ← hdisk]
  have htold {a : KeyAccess} (ha : accessFor t.store.ks tag t.store.ks.master = .ok a) : a = access := by
    rw [hopened] at ha
    exact Except.ok.inj (ha.symm.trans ((accessFor_eq_ok hm).mpr hent))
  cases hdoes with
  | still hkept hnone =>
    exact ⟨c, .refl, by rw [hkept, hdisk], rfl, List.Subset.refl _, fun wire hwire => by
      rw [imageOn_eq_none hnone] at hwire; cases hwire⟩
  | @turn part method s v reply hs hasks hcall hleft hheard hsigned =>
    obtain ⟨store, node⟩ := s
    obtain rfl : store = _ := hs.trans hstore
    have hstep : Chain.Step password tag access deep c (c.after reply v) :=
      .turn hks (fun a ha => htold (hasks tag a ha) ▸ KeyAccess.told_self _) hcall
        fun entry hmem => honest entry (hheard ▸ hmem)
    refine ⟨_, .single hstep, congrArg (·.medium.disk) hleft.symm, rfl,
      fun signed hmem => List.mem_append_right _ hmem, fun wire hwire => ?_⟩
    rcases out with o | ⟨⟨⟩⟩ | _
    · obtain ⟨signed, rfl, hheld, hw⟩ := hsigned o wire rfl hwire
      exact ⟨signed, List.mem_append_left _ List.mem_cons_self, hheld, hw⟩
    · cases hwire
  | @adds q account written hq hnew hcall hnone =>
    rw [hopened] at hq
    cases hm.symm.trans hq
    have hother : account.tag ≠ tag := by
      rintro rfl
      cases hent with
      | root hslot => cases hslot.symm.trans hnew
      | master hslot => cases hslot.symm.trans hnew
    have hop := add_call hcall
    rw [hstore] at hop
    have hok : Elsewhere password tag c.world (.write (.add account)) :=
      fun he => hother (Option.some.inj he)
    refine ⟨_, .single (.elsewhere hok (.write hks hop)), rfl, rfl, List.Subset.refl _, fun wire hwire => ?_⟩
    rw [imageOn_eq_none hnone] at hwire
    cases hwire
  | @advances q t'' slot a target entry written hq hslot hahead haccess hheard haddress hcall hnone =>
    rw [hopened] at hq haddress
    cases hm.symm.trans hq
    have hother : t'' ≠ tag := by
      rintro rfl
      obtain rfl := htold haccess
      obtain rfl := honest entry hheard
      exact h.not_ahead hinj hks hm (KeyAccess.told_self _) hslot hahead haddress
    have hop := persistAdvanceTo_call hcall
    rw [hstore] at hop
    have hok : Elsewhere password tag c.world (.write (.persistAdvanceTo t'' target)) :=
      fun he => hother (Option.some.inj he)
    refine ⟨_, .single (.elsewhere hok (.write hks hop)), rfl, rfl, List.Subset.refl _, fun wire hwire => ?_⟩
    rw [imageOn_eq_none hnone] at hwire
    cases hwire

/-! ## A process -/

/-- The signed image an ending brings out of a store. -/
def Ending.signed? : Ending → Option Bytes
  | .decided d => d.outcome.signed?
  | _ => none

/-- The divergences on an ending's page. -/
def Ending.divergences : Ending → List Divergence
  | .decided d => d.divergences
  | _ => []

/-- The line that is typed where the password is asked for. -/
def Surroundings.Types (env : Surroundings) (said : List Said) (line : Text) : Prop :=
  ∃ term, env.acquire = .ok term ∧ term.secretLine said passwordPrompt = .ok line

variable {env : Surroundings} {m m' : Machine UnixMedium}

omit [Crypto] in
theorem askPassword_cases {D : Type} {s s' : Scene D} {r : Reply Text Text}
    (h : askPassword env s = (r, s')) : s'.medium = s.medium ∧
      ((∃ e, r = .err e) ∨ ∃ line, r = .ok line ∧ env.Types s.said line) := by
  unfold askPassword at h
  rcases Call.check_bind_cases h with ⟨e, -, rfl, rfl⟩ | ⟨term, hterm, h⟩
  · exact ⟨rfl, .inl ⟨e, rfl⟩⟩
  unfold Terminal.readSecretLine at h
  rw [Call.get_bind, Call.modify_bind] at h
  rcases hline : term.secretLine s.said passwordPrompt with e | line <;> rw [hline] at h <;> cases h
  · exact ⟨rfl, .inl ⟨e, rfl⟩⟩
  · exact ⟨rfl, .inr ⟨line, rfl, term, hterm, hline⟩⟩

section
variable [Bip39]

/-- What a process does where a store is: nothing to it, or it opens it and runs a command on it. -/
inductive ProcessEnd (env : Surroundings) (m m' : Machine UnixMedium) : Reply Empty Ending → Prop where
  | still {ending : Ending} (hmedium : m'.medium.disk = m.medium.disk) (hsigned : ending.signed? = none)
      (hreports : ending.divergences = []) : ProcessEnd env m m' (.ok ending)
  | shut {ending : Ending} {unlock : Unlock} {e : Error}
      (hopen : openWith env.answers unlock m.medium = (.err e, m'.medium))
      (hsigned : ending.signed? = none) (hreports : ending.divergences = []) :
      ProcessEnd env m m' (.ok ending)
  | ran {line : Text} {nonceSeed : Block nonceSeedLen} {ks : Keystore} {opened : UnixMedium}
      {command : Command} {r : Reply Empty Decided} {t t' : Desk UnixMedium}
      (htyped : env.Types m.said line)
      (hopen : openWith env.answers ⟨line.utf8, nonceSeed⟩ m.medium = (.ok ks, opened))
      (hdesk : t.store = ⟨ks, opened⟩) (hrun : command.decide env.read t = (r, t'))
      (hdisk : m'.medium.disk = t'.store.medium.disk) (hheard : m'.node.heard = t'.session.node.heard) :
      ProcessEnd env m m' (r.map .decided)

omit [Bip39] in
theorem atDesk_cases {ks : Keystore} {x : Call (Desk UnixMedium) Empty Decided} {r : Reply Ending Ending}
    (h : Machine.atDesk ks x m = (r, m')) : ∃ r' t, x (m.desk ks) = (r', t) ∧ m' = m.left t ∧
      ended r = r'.map .decided := by
  unfold Machine.atDesk at h
  rcases hx : x (m.desk ks) with ⟨r', t⟩
  rw [hx] at h
  cases h
  refine ⟨r', t, rfl, rfl, ?_⟩
  rcases r' with d | ⟨⟨⟩⟩ | _ <;> rfl

omit [Bip39] in
/-- A command that asks no store leaves the directory. -/
theorem still_atDesk {ks : Keystore} {x : Call (Desk UnixMedium) Empty Command.Outcome}
    {r : Reply Ending Ending} (hquiet : Call.Quiet (Desk.store (D := UnixMedium)) x)
    (hunreported : Unreported x) (hunsigned : ∀ {t t' o}, x t = (.ok o, t') → o.signed? = none)
    (h : Machine.atDesk ks (beforeTheGate x) m = (r, m')) : ProcessEnd env m m' (ended r) := by
  obtain ⟨r', t, hx, rfl, hr⟩ := atDesk_cases h
  rw [hr]
  rcases Call.bind_cases hx with ⟨o, u, ho, hx⟩ | ⟨⟨⟩, -, -⟩ | ⟨ho, -⟩
  · cases hx
    refine .still (congrArg (fun s : Opened UnixMedium => s.medium.disk) (hquiet.keeps ho).1)
      (hunsigned ho) ?_
    show ([] : List Divergence) ++ o.divergences = []
    rw [hunreported.holds ho, List.append_nil]
  · exact absurd rfl (hquiet.keeps ho).2

omit [Crypto] [Bip39] in
theorem password_cases {r : Reply Ending Text}
    (h : (Machine.onScene (askPassword env)).mapErr notStarted m = (r, m')) :
    ∃ said, m' = { m with said } ∧
      ((∃ e, r = .err (notStarted e)) ∨ ∃ line, r = .ok line ∧ env.Types m.said line) := by
  obtain ⟨r', hscene, rfl⟩ := Call.mapErr_cases h
  obtain ⟨s, hasked, rfl⟩ := Call.zoom_cases hscene
  obtain ⟨hmedium, hline⟩ := askPassword_cases hasked
  refine ⟨s.said, by rw [hmedium], ?_⟩
  rcases hline with ⟨e, rfl⟩ | ⟨line, rfl, htyped⟩
  · exact .inl ⟨e, rfl⟩
  · exact .inr ⟨line, rfl, htyped⟩

omit [Bip39] in
theorem opening_cases {unlock : Unlock} {f : Error → Ending} {r : Reply Ending Keystore}
    (h : (Machine.onDirectory (Openable.openWith env.answers unlock)).mapErr f m = (r, m')) :
    ∃ opened, m' = { m with medium := opened } ∧
      ((∃ e, r = .err (f e) ∧ openWith env.answers unlock m.medium = (.err e, opened)) ∨
        ∃ ks, r = .ok ks ∧ openWith env.answers unlock m.medium = (.ok ks, opened)) := by
  obtain ⟨r', hdirectory, rfl⟩ := Call.mapErr_cases h
  obtain ⟨opened, hopen, rfl⟩ := Call.zoom_cases hdirectory
  have hopen : openWith env.answers unlock m.medium = (r', opened) := hopen
  refine ⟨opened, rfl, ?_⟩
  rcases (openWith_cases hopen).2 with ⟨e, rfl⟩ | ⟨ks, image, rfl, -⟩
  · exact .inl ⟨e, rfl, hopen⟩
  · exact .inr ⟨ks, rfl, hopen⟩

omit [Bip39] in
theorem runOnStore_cases {dir : Text} {command : Command} {r : Reply Ending Ending}
    (h : runOnStore env dir command m = (r, m')) : ProcessEnd env m m' (ended r) := by
  unfold runOnStore at h
  rcases Call.bind_cases h with ⟨line, m₁, hasked, h⟩ | ⟨e, hasked, rfl⟩ | ⟨hasked, rfl⟩ <;>
    obtain ⟨said, rfl, hline⟩ := password_cases hasked
  rotate_left
  · exact .still rfl (by rcases hline with ⟨e, he⟩ | ⟨_, he, -⟩ <;> cases he; rfl)
      (by rcases hline with ⟨e, he⟩ | ⟨_, he, -⟩ <;> cases he; rfl)
  · rcases hline with ⟨e, he⟩ | ⟨_, he, -⟩ <;> cases he
  rcases hline with ⟨e, he⟩ | ⟨line', he, htyped⟩ <;> cases he
  rcases Call.check_bind_cases h with ⟨e, he, rfl, rfl⟩ | ⟨nonceSeed, -, h⟩
  · rcases hseed : env.nonceSeed with e' | nonceSeed <;> rw [hseed] at he <;> cases he
    exact .still rfl rfl rfl
  rcases Call.bind_cases h with ⟨ks, m₂, hopening, h⟩ | ⟨e, hopening, rfl⟩ | ⟨hopening, rfl⟩ <;>
    obtain ⟨opened, rfl, ⟨e', he, hopen⟩ | ⟨ks', he, hopen⟩⟩ := opening_cases hopening <;> cases he
  · obtain ⟨r', t, hrun, rfl, hr⟩ := atDesk_cases h
    rw [hr]
    exact .ran htyped hopen rfl hrun rfl rfl
  · exact .shut hopen rfl rfl

omit [Crypto] [Bip39] in
theorem askPassword_of {term : Terminal} {line : Text} (hacquire : env.acquire = .ok term)
    (hline : term.secretLine m.said passwordPrompt = .ok line) :
    ∃ said, (Machine.onScene (askPassword env)).mapErr notStarted m = (.ok line, { m with said }) := by
  have hasked : askPassword env (⟨m.medium, m.said⟩ : Scene UnixMedium) =
      (.ok line, ⟨m.medium, .asked passwordPrompt (.ok line) :: m.said⟩) := by
    unfold askPassword Terminal.readSecretLine
    rw [hacquire, Call.check_ok, Call.pure_bind, Call.get_bind, Call.modify_bind, hline]
    rfl
  refine ⟨.asked passwordPrompt (.ok line) :: m.said, ?_⟩
  unfold Machine.onScene Call.mapErr Call.zoom
  rw [hasked]

omit [Bip39] in
/-- A password that opens the store runs the command on it. -/
theorem runOnStore_of {dir line : Text} {term : Terminal} {nonceSeed : Block nonceSeedLen}
    {ks : Keystore} {opened : UnixMedium} {command : Command} {d : Decided} {t : Desk UnixMedium}
    (hacquire : env.acquire = .ok term) (hline : term.secretLine m.said passwordPrompt = .ok line)
    (hseed : env.nonceSeed = .ok nonceSeed)
    (hopen : openWith env.answers ⟨line.utf8, nonceSeed⟩ m.medium = (.ok ks, opened))
    (hrun : command.decide (ε := Empty) env.read ({ m with medium := opened }.desk ks) = (.ok d, t)) :
    ∃ said, runOnStore env dir command m = (.ok (.decided d), { m with said }.left t) := by
  obtain ⟨said, hasked⟩ := askPassword_of hacquire hline
  have hopening : (Machine.onDirectory (Openable.openWith env.answers ⟨line.utf8, nonceSeed⟩)).mapErr
      (fun e => notStarted (cannotOpen dir (env.display (.store e)))) { m with said } =
      (.ok ks, { m with said, medium := opened }) := by
    have hopen : Openable.openWith env.answers ⟨line.utf8, nonceSeed⟩ m.medium = (.ok ks, opened) := hopen
    unfold Machine.onDirectory Call.mapErr Call.zoom
    rw [hopen]
  refine ⟨said, ?_⟩
  unfold runOnStore
  rw [Call.bind_of_ok hasked, hseed]
  dsimp only [Except.mapError, Call.check_ok, Call.pure_bind]
  rw [Call.bind_of_ok hopening]
  unfold Machine.atDesk
  have hrun : command.decide (ε := Empty) env.read ({ m with said, medium := opened }.desk ks) = (.ok d, t) := hrun
  rw [hrun]
  rfl

/-- A line that spends runs on the store of its directory. -/
theorem runFromArgv_spend {argv : List Text} {dir url : Text} {node : Option Text} {command : Command}
    {spend : Spend} {ending : Ending} (hparse : parse env.readToString argv = .ok (.run ⟨dir, node, command⟩))
    (hspends : command = .send spend ∨ command = .resign spend) (hurl : node.elim (.ok []) baseUrl = .ok url)
    (hrun : runOnStore env dir command m = (.ok ending, m')) :
    runFromArgv env argv m = (.ok ending, m') := by
  have hinvocation : runInvocation env ⟨dir, node, command⟩ m = (.ok ending, m') := by
    unfold runInvocation
    rw [hurl]
    rcases hspends with rfl | rfl <;> exact hrun
  unfold runFromArgv
  rw [hparse]
  dsimp only
  rw [hinvocation]
  rfl

/-- Where a snapshot is, `create` makes nothing. -/
theorem orchestrate_occupied {host : Host} {fromPhrase : Bool} {entropy : Except Text CreateEntropy}
    {acquire : Except Text Terminal} {medium : UnixMedium} {r : Reply Empty Report} {s : Scene UnixMedium}
    (hheld : medium.disk.snapshot ≠ none)
    (h : orchestrate host fromPhrase entropy acquire ⟨medium, []⟩ = (r, s)) :
    s.medium = medium ∧ ∃ report, r = .ok report := by
  unfold orchestrate at h
  rcases hrun : orchestrating host fromPhrase entropy acquire (⟨medium, []⟩ : Scene UnixMedium) with
    ⟨reply, t⟩
  rw [hrun] at h
  rcases orchestrating_cases hrun with ⟨text, rfl, -, hmedium⟩ | ⟨_, _, _, _, _, -, -, -, hmake⟩
  · cases h
    exact ⟨hmedium, _, rfl⟩
  obtain ⟨r', hcreate, -, rfl⟩ := making_cases hmake
  rcases create_reaches hcreate with ⟨cause, rfl, hmedium⟩ | hreaches
  · cases h
    exact ⟨hmedium, _, rfl⟩
  · exact absurd hreaches.founds.free hheld

/-- Everything a process does in a directory that has a store. -/
theorem process_cases {argv : List Text} {reply : Reply Empty Ending} (hheld : m.medium.disk.snapshot ≠ none)
    (hfresh : m.said = []) (h : runFromArgv env argv m = (reply, m')) : ProcessEnd env m m' reply := by
  unfold runFromArgv at h
  rcases hparse : parse env.readToString argv with refusal | (⟨⟩ | inv) <;> rw [hparse] at h
  · cases h
    exact .still rfl rfl rfl
  · cases h
    exact .still rfl rfl rfl
  rcases hrun : runInvocation env inv m with ⟨r, m₁⟩
  dsimp only at h
  rw [hrun] at h
  cases h
  unfold runInvocation at hrun
  rcases hurl : inv.node.elim (.ok []) baseUrl with e | url <;> rw [hurl] at hrun
  · cases hrun
    exact .still rfl rfl rfl
  dsimp only at hrun
  rcases inv with ⟨dir, node, command⟩
  have hexplorer (hno : command.opensNoStore = true) (hrun : Machine.atDesk noStore
      (beforeTheGate (runExplorer env.read command)) m = (r, m₁)) : ProcessEnd env m m₁ (ended r) :=
    still_atDesk (quiet_runExplorer env.read command) (unreported_runExplorer env.read command)
      (fun ho => Command.Outcome.signed?_of_wire? (((mute_runExplorer env.read command).quiet ho).2 _ rfl))
      hrun
  cases command with
  | create fromPhrase =>
    rcases hmake : orchestrate (env.host dir) fromPhrase env.entropy env.acquire
      (⟨m.medium, []⟩ : Scene UnixMedium) with ⟨r', s⟩
    obtain ⟨hmedium, report, rfl⟩ := orchestrate_occupied hheld hmake
    rcases Call.bind_cases hrun with ⟨report', m₂, hscene, hrun⟩ | ⟨e, hscene, -⟩ | ⟨hscene, -⟩ <;>
      obtain ⟨s', hcalled, rfl⟩ := Call.zoom_cases hscene <;>
      rw [hfresh] at hcalled <;> dsimp only at hcalled <;> rw [hmake] at hcalled <;> cases hcalled
    cases hrun
    exact .still (congrArg (·.disk) hmedium) rfl rfl
  | submit artifact =>
    exact still_atDesk quiet_cmdSubmit unreported_cmdSubmit signed?_cmdSubmit hrun
  | lookupTransaction | recentTransactions | block | blocks | mempool => exact hexplorer rfl hrun
  | balance | address | send | settle | resign | reconcile | restore | status | discover =>
    exact runOnStore_cases hrun

end

/-! ## A process is a run of the wallet -/

/-- What is typed is the password the store is sealed under, or opens nothing. -/
def Surroundings.Knows (env : Surroundings) (password : Bytes) (m : Machine UnixMedium) : Prop :=
  ∀ line nonceSeed ks opened, env.Types m.said line →
    openWith env.answers ⟨line.utf8, nonceSeed⟩ m.medium = (.ok ks, opened) → line.utf8 = password

/-- A wallet between processes. -/
structure AtRest (password : Bytes) (tag : Tag) (access : KeyAccess) (at' : WotsIndex → Address)
    (c : Chain) (r : Ratchet.State Digest) : Prop where
  tracks : Tracks password tag access at' c r
  closed : c.world.handle = none
  entrusted : ∀ p, c.world.state password = some p → Entrusted p tag access

variable (deep) in
/-- The wallet that a process opens. -/
theorem AtRest.opens (hl : Crypto.Lawful) (h : AtRest password tag access at' c r)
    (hdisk : m.medium.disk = c.world.disk) {answers : Answers} {unlock : Unlock} {opened : UnixMedium}
    (hpassword : unlock.password = password)
    (hopen : openWith answers unlock m.medium = (.ok ks, opened)) :
    ∃ p, let c' := { c with world := { c.world with disk := opened.disk, handle := some ks } }
      Chain.Step password tag access deep c c' ∧ Tracks password tag access at' c' r ∧
        ks.memory = some p ∧ Entrusted p tag access := by
  obtain ⟨p, hm, -⟩ := reading_of_open hopen
  have hopened : openWith answers unlock ⟨c.world.disk, m.medium.fates, m.medium.calls⟩ = (.ok ks, opened) := by
    rw [← hdisk]
    exact hopen
  have hstep : c.world.Step password .open' { c.world with disk := opened.disk, handle := some ks } :=
    .open' h.closed (.inl hpassword) hopened
  have hok : Elsewhere password tag c.world .open' := trivial
  have htracks := h.tracks.elsewhere hl hok hstep
  obtain ⟨q, slot, hq, -⟩ := h.tracks.stands
  have hchain : Chain.Step password tag access deep c _ := .elsewhere hok hstep
  obtain ⟨q', hq', hlater⟩ := hchain.later hl h.tracks.sound hq
  cases hq'.symm.trans (htracks.sound ks p rfl hm).2
  exact ⟨p, hchain, htracks, hm, (h.entrusted q hq).later hlater⟩

/-- The image on a process's page. -/
def pageOf : Reply Empty Ending → Option Bytes
  | .ok ending => ending.signed?
  | _ => none

variable (deep) in
/-- A process is a run of the wallet, and leaves it closed. -/
theorem ProcessEnd.brings (hl : Crypto.Lawful) (hinj : Function.Injective at')
    (h : AtRest password tag access at' c r) (hdisk : m.medium.disk = c.world.disk)
    (hknows : env.Knows password m) {reply : Reply Empty Ending} (hend : ProcessEnd env m m' reply)
    (honest : Honest tag c.entry m'.node.heard) :
    ∃ c', Brings password tag access deep c c' m'.medium.disk (pageOf reply) ∧ c'.world.handle = none := by
  cases hend with
  | still hmedium hsigned =>
    exact ⟨c, ⟨.refl, by rw [hmedium, hdisk], rfl, List.Subset.refl _, fun wire hwire => by
      rw [pageOf, hsigned] at hwire; cases hwire⟩, h.closed⟩
  | @shut ending unlock e hopen hsigned =>
    have hopen : openWith env.answers unlock ⟨c.world.disk, m.medium.fates, m.medium.calls⟩ =
        (.err e, m'.medium) := by
      rw [← hdisk]
      exact hopen
    have hstep : c.world.Step password .open' { c.world with disk := m'.medium.disk, handle := none } :=
      .open' h.closed (.inr rfl) hopen
    have hok : Elsewhere password tag c.world .open' := trivial
    exact ⟨_, ⟨.single (.elsewhere hok hstep), rfl, rfl, List.Subset.refl _, fun wire hwire => by
      rw [pageOf, hsigned] at hwire; cases hwire⟩, rfl⟩
  | @ran line nonceSeed ks opened command r' t t' htyped hopen hdesk hrun hleft hheard =>
    obtain ⟨p, hstep, htracks, hm, hent⟩ := h.opens deep hl hdisk
      (hknows line nonceSeed ks opened htyped hopen) hopen
    have hdoes := decide_does env.read (by rw [hdesk]; exact hm) hrun
    obtain ⟨c', hbrings⟩ := hdoes.brings deep hinj htracks rfl hm hent (by rw [hdesk])
      (by rw [hdesk]) (hheard ▸ honest)
    have hpage : pageOf (r'.map .decided) = imageOn (r'.map Decided.outcome) := by
      rcases r' with d | ⟨⟨⟩⟩ | _ <;> rfl
    have hok : Elsewhere password tag c'.world .close := trivial
    refine ⟨{ c' with world := { c'.world with handle := none } }, ⟨?_, ?_, hbrings.entry,
      hbrings.shipped, fun wire hwire => hbrings.signed wire (hpage ▸ hwire)⟩, rfl⟩
    · exact .tail (.head hstep hbrings.run) (.elsewhere hok .close)
    · exact hbrings.disk.trans hleft.symm

end

end MochimoWallet.Cli

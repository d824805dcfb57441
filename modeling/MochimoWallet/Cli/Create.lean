import MochimoWallet.Mnemonic
import MochimoWallet.Destination
import MochimoWallet.Keystore.SlotMedium

/-!
# The create command

Create makes a store under a new password, from a phrase it generates or one it is given.
Everything that can be asked is asked before anything is written: the terminal, the directory,
the password, the phrase and the operator's reading of it. Then come three commits, of the empty
store, of the master seed and of account 0.

A `Scene` is the directory and the terminal's transcript. What the terminal answers may depend
on the whole of it, so every way of writing, reading and typing is some `Terminal`.
-/

namespace MochimoWallet.Cli

open Codec Keystore

/-! ## Reports -/

inductive Code where
  | ok
  | usage
  | startupRefused
  | refused
  deriving DecidableEq

structure Report where
  text : Text
  code : Code
  deriving DecidableEq

namespace Report

def refused (text : Text) : Report := ⟨text, .refused⟩

end Report

/-- The sentence that every refusal before the write ends with. -/
def promise : Text := "Nothing was created.".toList

def nothingWasCreated (text : Text) : Text :=
  let text := text.trimEnd
  if text.getLast?.any (· ∈ ['.', '!', '?']) then text ++ ' ' :: promise
  else text ++ '.' :: ' ' :: promise

/-- A refusal in somebody else's words. -/
def Report.unmade (text : Text) : Report := .refused (nothingWasCreated text)

/-! ## The terminal -/

/-- What went to the terminal, and what came of it. -/
inductive Said where
  | shown (text : Text) (reply : Except Text Unit)
  | asked (prompt : Text) (reply : Except Text Text)

/-- A terminal and whoever sits at it, answering from all that was said, the latest first. -/
structure Terminal where
  shows : List Said → Text → Except Text Unit
  secretLine : List Said → Text → Except Text Text
  visibleLine : List Said → Text → Except Text Text

/-- The store's medium, and the transcript of the terminal. -/
structure Scene (D : Type) where
  medium : D
  said : List Said

section
variable {D : Type}

/-- Run calls on the medium of a scene. -/
def onMedium {ε α : Type} (x : Call D ε α) : Call (Scene D) ε α :=
  Call.zoom Scene.medium (fun medium s => { s with medium }) x

namespace Terminal

def tell (term : Terminal) (text : Text) : Call (Scene D) Text Unit := do
  let s ← Call.get
  let reply := term.shows s.said text
  Call.modify fun s => { s with said := .shown text reply :: s.said }
  Call.check reply

def readSecretLine (term : Terminal) (prompt : Text) : Call (Scene D) Text Text := do
  let s ← Call.get
  let reply := term.secretLine s.said prompt
  Call.modify fun s => { s with said := .asked prompt reply :: s.said }
  Call.check reply

def readVisibleLine (term : Terminal) (prompt : Text) : Call (Scene D) Text Text := do
  let s ← Call.get
  let reply := term.visibleLine s.said prompt
  Call.modify fun s => { s with said := .asked prompt reply :: s.said }
  Call.check reply

end Terminal

/-! ## The password -/

abbrev minPasswordLen : ℕ := 12

/-- How many characters a password has, when they are too few. -/
def shortPasswordChars (password : Text) : Option ℕ :=
  if password.length < minPasswordLen then some password.length else none

def passwordRefusal (password : Text) : Option Text :=
  (shortPasswordChars password).map fun chars =>
    "that password is ".toList ++ .ofNat chars ++
      " character(s); this wallet will not take fewer than ".toList ++ .ofNat minPasswordLen ++
      (".\n  It is not a rule about digits or symbols -- there is none, and a " ++
        "passphrase of ordinary words is a fine answer. It is that this password is now the ONLY " ++
        "thing between somebody holding your store file and every account in it. ").toList ++ promise

def choosePrompt : Text :=
  "choose a password for this wallet (it will be needed for every command): ".toList

def againPrompt : Text := "type it again: ".toList

def mismatchRefusal : Text := "those two passwords are not the same. ".toList ++ promise

/-- A new password, typed twice; what it refuses with is a whole refusal. -/
def readNewPassword (term : Terminal) : Call (Scene D) Text Text := do
  let first ← (term.readSecretLine choosePrompt).mapErr nothingWasCreated
  match passwordRefusal first with
  | some why => Call.refuse why
  | none => do
    let again ← (term.readSecretLine againPrompt).mapErr nothingWasCreated
    if first.utf8 ≠ again.utf8 then Call.refuse mismatchRefusal
    else pure first

/-! ## The confirmation -/

/-- The words the confirmation asks for, counted from one. -/
def confirmPositions : List ℕ := [1, 12, 24]

/-- The positions, as they are printed. -/
def positionsText : Text :=
  .ofNat (confirmPositions.getD 0 0) ++ ", ".toList ++ .ofNat (confirmPositions.getD 1 0) ++
    " and ".toList ++ .ofNat (confirmPositions.getD 2 0)

def confirmationMatches (phrase answer : Text) : Bool :=
  let words := phrase.splitWhitespace
  let given := answer.splitWhitespace
  given.length = confirmPositions.length &&
    (confirmPositions.zip given).all fun (position, got) =>
      (words[position - 1]?).any fun want => want.eqIgnoreAsciiCase got

/-! ## Texts -/

def schemeWarning : Text :=
  ("BEFORE YOU TYPE: this wallet implements one derivation scheme.\n\n" ++
    "Mochimo wallets do not agree on how a recovery phrase becomes a seed. This one\n" ++
    "follows the shipped browser extension. A phrase written under a different\n" ++
    "scheme is accepted here and derives a working store -- there is no error, and\n" ++
    "nothing refuses it. What you get is a wallet whose accounts are empty, which is\n" ++
    "exactly what a wallet nobody has ever paid looks like.\n\n" ++
    "If the phrase came from this program or from the browser extension, continue.\n" ++
    "If it came from somewhere else, confirm what that wallet derives before you\n" ++
    "read an empty balance here as the truth about your funds.\n").toList

def wordsPrompt : Text := "existing recovery phrase (12 or 24 words): ".toList

def phraseText (phrase : Text) : Text :=
  "\nWRITE THIS DOWN. It is shown once.\n\n  ".toList ++ phrase ++
    ("\n\nIt is the ONLY backup of this wallet. It cannot be recovered from the store.\n" ++
      "The store is sealed with the password you just chose; forget it and these words " ++
      "are the only way back in.\n" ++
      "These words are now in this terminal's scrollback, and in whatever your terminal " ++
      "emulator keeps.\n").toList

def confirmPrompt : Text :=
  "type words ".toList ++ positionsText ++ ", separated by spaces: ".toList

def confirmRefusal : Text :=
  "those are not words ".toList ++ positionsText ++ ". ".toList ++ promise ++
    ("\n\n  The phrase above belongs to no store. Run `create` again for a fresh phrase, or " ++
      "`create --from-phrase` to build the store from this one -- and either way, write the " ++
      "phrase down before anything is sent to the wallet.").toList

def occupiedText (dir what : Text) : Text :=
  "a keystore already exists at ".toList ++ dir ++ " (its ".toList ++ what ++
    (" is present). Nothing was shown and nothing was changed. `create` makes a new store: use " ++
      "a different --dir for one. To add an account to this store, run `restore --account N` " ++
      "against it; `address` lists what it holds.").toList

def createdText (dir dest : Text) (confirmed : Option ℕ) : Text :=
  "created ".toList ++ dir ++ "\n  destination  ".toList ++ dest ++ "\n".toList ++
    (match confirmed with
      | some n => "  confirmed    ".toList ++ .ofNat n ++ " words read back\n".toList
      | none => []) ++
    ("\nThat destination is where funds are sent -- Base58 over the tag and its CRC16, the " ++
      "form every Mochimo wallet takes. Give it to whoever is paying you.\n\nNext: `address` " ++
      "with no argument prints it again, and `address <destination>` adds the 40-byte ledger " ++
      "address; both need no `--node` and work before this account has any funds. Every other " ++
      "command asks a node first, requires `--node`, and refuses until the account has been " ++
      "funded at least once.").toList

def afterTheStoreExists (dir : Text) : Text :=
  ("the confirmation was answered correctly and the store was written, but its " ++
      "destination could not be rendered.\n\nA keystore WAS created at ").toList ++ dir ++
    (" and account 0 is in it. The phrase shown above is its only backup and cannot be recovered " ++
      "from the store.\n\n  IF YOU DID NOT WRITE THE PHRASE DOWN: delete ").toList ++ dir ++
    (" and run `create` again. That is free right now and stops being possible the moment this " ++
      "account holds funds.\n\nThe destination could not be rendered here. `address` with no " ++
      "argument reads it back from the store, and needs neither a node nor the phrase.").toList

def suppliedText (dir e : Text) : Text :=
  "the store at ".toList ++ dir ++
    (" was created from the phrase you supplied, but its destination could not be rendered " ++
      "(").toList ++ e ++ "). `address` with no argument reads it back from the store.".toList

end

/-! ## The write -/

/-- What `create` draws: the entropy of a phrase, the salt and the nonce seed of a store. -/
structure CreateEntropy where
  phrase : Block 32
  salt : Block saltLen
  nonceSeed : Block nonceSeedLen

/-- What the calls under `create` refuse with. -/
inductive CreateError where
  | passwordTooShort (chars min : ℕ)
  | mnemonic (e : MnemonicError)
  | store (e : Error)
  | reference (e : ReferenceError)
  deriving DecidableEq

/-- A medium with snapshot files, as a process finds them in the directory. -/
class HasSnapshots (D : Type) where
  snapshots : D → List Bytes

instance : HasSnapshots UnixMedium := ⟨fun m => m.disk.snapshot.toList⟩

instance : HasSnapshots SlotMedium := ⟨fun m => (m.cells 0).now.toList ++ (m.cells 1).now.toList⟩

variable [Crypto]

/-- A layout that stores are made on. -/
class Storage (D : Type) extends Layout D, HasSnapshots D where
  createWith : Answers → Init → Call D Error Keystore

instance : Storage UnixMedium := ⟨Keystore.createWith⟩

instance : Storage SlotMedium := ⟨createSlots⟩

variable {D : Type} [Storage D] [Bip39]

/-- Calls on a new handle, which is let go of when they end. -/
def withHandle {ε α : Type} (ks : Keystore) (x : Call (Opened D) ε α) : Call D ε α := fun m =>
  match x ⟨ks, m⟩ with
  | (r, s) => (r, s.medium)

/-- The store of a phrase, with account 0 in it; its tag is returned. -/
def create (answers : Answers) (words password : Text) (salt : Block saltLen)
    (nonceSeed : Block nonceSeedLen) : Call D CreateError Tag := do
  match shortPasswordChars password with
  | some chars => Call.refuse (.passwordTooShort chars minPasswordLen)
  | none => do
    -- The phrase is parsed before the directory exists.
    let master ← Call.check ((Mnemonic.masterSeedFromPhrase words []).mapError .mnemonic)
    let ks ← (Storage.createWith answers ⟨password.utf8, salt, nonceSeed, .recommended⟩).mapErr .store
    (withHandle ks do
      let _ ← adoptMaster master
      let account := Account.derive master 0
      let tag := account.tag
      add account
      pure tag).mapErr .store

/-- What the host answers and how it speaks. -/
structure Host where
  /-- The directory, as it is displayed. -/
  dir : Text
  /-- Whether a look at the directory can tell what is in it. -/
  looked : Bool
  answers : Answers
  display : CreateError → Text

/-- The early look at the directory: a look that fails finds nothing. -/
def Host.occupied (host : Host) (m : D) : Option Text :=
  if host.looked && HasSnapshots.snapshots m ≠ [] then some "snapshot".toList else none

def refuseHeld (host : Host) (m : D) : Except Report Unit :=
  match host.occupied m with
  | some what => .error (.unmade (occupiedText host.dir what))
  | none => .ok ()

/-- What is reported of a store made from a phrase that was given. -/
def suppliedReport (host : Host) : Except CreateError Tag → Report
  | .ok tag =>
    match tagToBase58 tag with
    | .ok dest => ⟨createdText host.dir dest none, .ok⟩
    | .error e => .refused (suppliedText host.dir (host.display (.reference e)))
  | .error e => .unmade (host.display e)

/-- What is reported of a store made from a phrase that was shown. -/
def shownReport (host : Host) : Except CreateError Tag → Report
  | .ok tag =>
    match tagToBase58 tag with
    | .ok dest => ⟨createdText host.dir dest (some confirmPositions.length), .ok⟩
    | .error _ => .refused (afterTheStoreExists host.dir)
  | .error e => .unmade (host.display e)

/-- The command; what it refuses with is its report as well. -/
def orchestrating (host : Host) (fromPhrase : Bool) (entropy : Except Text CreateEntropy)
    (acquire : Except Text Terminal) : Call (Scene D) Report Report := do
  let term ← Call.check (acquire.mapError .unmade)
  let s ← Call.get
  Call.check (refuseHeld host s.medium)
  if fromPhrase then do
    (term.tell schemeWarning).mapErr .unmade
    let password ← (readNewPassword term).mapErr .refused
    let words ← (term.readSecretLine wordsPrompt).mapErr .unmade
    let e ← Call.check (entropy.mapError .unmade)
    let created ← (onMedium (create host.answers words password e.salt e.nonceSeed)).attempt
    pure (suppliedReport host created)
  else do
    let password ← (readNewPassword term).mapErr .refused
    let e ← Call.check (entropy.mapError .unmade)
    let phrase ← Call.check ((Mnemonic.phraseFromEntropy e.phrase.1).mapError fun e =>
      .unmade (host.display (.mnemonic e)))
    (term.tell (phraseText phrase)).mapErr .unmade
    let answer ← (term.readVisibleLine confirmPrompt).mapErr .unmade
    if confirmationMatches phrase answer then do
      let created ← (onMedium (create host.answers phrase password e.salt e.nonceSeed)).attempt
      pure (shownReport host created)
    else Call.refuse (.refused confirmRefusal)

def orchestrate (host : Host) (fromPhrase : Bool) (entropy : Except Text CreateEntropy)
    (acquire : Except Text Terminal) : Call (Scene D) Empty Report := fun s =>
  match orchestrating host fromPhrase entropy acquire s with
  | (.ok report, t) | (.err report, t) => (.ok report, t)
  | (.killed, t) => (.killed, t)

end MochimoWallet.Cli

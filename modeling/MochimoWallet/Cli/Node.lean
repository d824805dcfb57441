import MochimoWallet.Lib.Text

/-!
# The node's address

A node is asked over plaintext only where the link stays on this machine, or the operator has said
so. What counts is decided by the bytes of the address: an IP literal that is loopback, or the name
`localhost`.
-/

namespace MochimoWallet.Cli

/-! ## IP literals -/

/-- A number at the front of a text: at most so many digits, and below `bound`. -/
def readNumber (radix maxDigits bound : ℕ) (allowZeroPrefix : Bool) (s : Text) : Option (ℕ × Text) :=
  let ds := s.takeWhile fun c => (Text.digit radix c).isSome
  let n := ds.foldl (fun n c => n * radix + (Text.digit radix c).getD 0) 0
  if ds = [] ∨ maxDigits < ds.length ∨ bound ≤ n then none
  else if ¬ allowZeroPrefix ∧ ds.head? = some '0' ∧ 1 < ds.length then none
  else some (n, s.drop ds.length)

/-- The separator before every part but the first. -/
def readSeparator (sep : Char) (i : ℕ) (s : Text) : Option Text :=
  if i = 0 then some s else s.stripPrefix [sep]

/-- Octets from the `i`th on. -/
def readOctets : ℕ → ℕ → Text → Option (List ℕ × Text)
  | _, 0, s => some ([], s)
  | i, k + 1, s => do
    let s ← readSeparator '.' i s
    let (n, s) ← readNumber 10 3 256 false s
    let (ns, s) ← readOctets (i + 1) k s
    return (n :: ns, s)

def readIpv4 (s : Text) : Option (List ℕ × Text) := readOctets 0 4 s

/-- Groups from the `i`th on, `k` of them at most; the last two may be written as an IPv4 address,
and the second result says that they were. -/
def readGroups : ℕ → ℕ → Text → List ℕ × Bool × Text
  | _, 0, s => ([], false, s)
  | i, k + 1, s =>
    let group := ((readSeparator ':' i s).bind (readNumber 16 4 (2 ^ 16) true)).elim ([], false, s)
      fun (n, s) =>
        let (ns, v4, s) := readGroups (i + 1) k s
        (n :: ns, v4, s)
    match if k = 0 then none else (readSeparator ':' i s).bind readIpv4 with
    | some ([a, b, c, d], s) => ([a * 256 + b, c * 256 + d], true, s)
    | _ => group

/-- Eight groups, or fewer around `::`, which stands for one or more that are zero. -/
def readIpv6 (s : Text) : Option (List ℕ × Text) := do
  let (front, v4, s) := readGroups 0 8 s
  if front.length = 8 then some (front, s)
  else if v4 then none
  else
    let s ← s.stripPrefix "::".toList
    let (back, _, s) := readGroups 0 (8 - (front.length + 1)) s
    return (front ++ List.replicate (8 - front.length - back.length) 0 ++ back, s)

/-- Whether an IP literal is loopback; nothing where the text is no such literal. -/
def isLoopback (host : Text) : Option Bool :=
  match readIpv4 host with
  | some (octets, rest) => if rest = [] then some (octets.head? = some 127) else none
  | none => do
    let (groups, rest) ← readIpv6 host
    if rest = [] then some (groups = [0, 0, 0, 0, 0, 0, 0, 1]) else none

/-! ## The gate -/

def hostOf (authority : Text) : Option Text :=
  match authority.stripPrefix ['['] with
  | some rest => if ']' ∈ rest then some (rest.takeWhile (· ≠ ']')) else none
  | none => some (authority.takeWhile (· ≠ ':'))

/-- Plaintext to a host that is not on this machine. -/
def plaintextOffLoopback (url : Text) : Bool :=
  let url := (url.stripSuffix ['/']).getD url
  match url.stripPrefix "http://".toList with
  | none => false
  | some authority =>
    match hostOf authority with
    | none => true
    | some host =>
      if host.eqIgnoreAsciiCase "localhost".toList then false
      else
        match isLoopback host with
        | some loopback => !loopback
        | none => true

example : plaintextOffLoopback "http://[::1]:8080/".toList = false := by decide
example : plaintextOffLoopback "http://127.0.0.1.example.com".toList = true := by decide

end MochimoWallet.Cli

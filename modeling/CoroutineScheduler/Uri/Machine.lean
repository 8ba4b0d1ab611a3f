import CoroutineScheduler.Lib.Words
import CoroutineScheduler.Http.Response

/-!
# Parsing a URI

`Uri::Create` with the machine of `uri.rl`. The grammar is ambiguous: a text may be the start of a
scheme or of a relative path, and that of an authority may belong to a `userinfo` or to a host and a
port. The generated machine follows all readings at once, and a transition has the actions of all of
them, each of equal ones once; a state is therefore the record of the readings that are still
possible (`Authority`). All actions share the pointer `mark`.

A pointer into the text is the part of the text from there on, and `NULL` is `none`.
-/

namespace CoroutineScheduler

open Http Words

/-- The fields of `Uri`. -/
structure Uri where
  scheme : List UInt8 := []
  userinfo : List UInt8 := []
  host : List UInt8 := []
  path : List UInt8 := []
  query : List UInt8 := []
  fragment : List UInt8 := []
  port : ℤ := 0
  deriving DecidableEq, Repr

namespace Uri

/-! ## Bytes -/

def alpha (c : UInt8) : Bool := (65 ≤ c && c ≤ 90) || (97 ≤ c && c ≤ 122)

def digit (c : UInt8) : Bool := 48 ≤ c && c ≤ 57

def subDelims (c : UInt8) : Bool := (ascii "!$&'()*+,;=").contains c

def unreserved (c : UInt8) : Bool := alpha c || digit c || (ascii "-._~").contains c

/-- A byte of a `reg_name`, apart from `pct_encoded`. -/
def regChar (c : UInt8) : Bool := unreserved c || subDelims c

def userChar (c : UInt8) : Bool := regChar c || c == 58

/-- `pchar` takes every byte that is not ASCII. -/
def pchar (c : UInt8) : Bool := 128 ≤ c || regChar c || c == 58 || c == 64

/-- `pchar - ":"`. -/
def pcharNc (c : UInt8) : Bool := pchar c && c != 58

def pathChar (c : UInt8) : Bool := pchar c || c == 47

def queryChar (c : UInt8) : Bool := pchar c || c == 47 || c == 63

def schemeChar (c : UInt8) : Bool := alpha c || digit c || (ascii "+-.").contains c

/-! ## Hosts -/

/-- The bytes of a class. -/
def bytes (p : UInt8 → Bool) : List UInt8 := ((List.range 256).map Nat.toUInt8).filter p

def lit (s : String) : RegularExpression UInt8 := word (ascii s)

def opt (r : RegularExpression UInt8) : RegularExpression UInt8 := r + 1

/-- `digit | [1-9] digit | "1" digit{2} | 2 [0-4] digit | "25" [0-5]`, where `2` without quotes is
the byte 2. -/
def decOctet : RegularExpression UInt8 :=
  let d := oneOf (ascii "0123456789")
  d + oneOf (ascii "123456789") * d + lit "1" * (d * d) + oneOf [2] * (oneOf (ascii "01234") * d) +
    lit "25" * oneOf (ascii "012345")

def ipv4address (octet : RegularExpression UInt8) : RegularExpression UInt8 :=
  octet * (lit "." * (octet * (lit "." * (octet * (lit "." * octet)))))

def h16 : RegularExpression UInt8 :=
  let x := oneOf (bytes xdigit)
  x + x ^ 2 + x ^ 3 + x ^ 4

def h16Colon : RegularExpression UInt8 := h16 * lit ":"

def ls32 (octet : RegularExpression UInt8) : RegularExpression UInt8 :=
  h16 * (lit ":" * h16) + ipv4address octet

/-- The nine alternatives of `IPv6address`; `front n` is what may stand in front of `::` with `n`
colons in it. -/
def ipv6address (octet : RegularExpression UInt8) (front : ℕ → RegularExpression UInt8) :
    RegularExpression UInt8 :=
  h16Colon ^ 6 * ls32 octet + lit "::" * (h16Colon ^ 5 * ls32 octet) +
    front 0 * (lit "::" * (h16Colon ^ 4 * ls32 octet)) +
    front 1 * (lit "::" * (h16Colon ^ 3 * ls32 octet)) +
    front 2 * (lit "::" * (h16Colon ^ 2 * ls32 octet)) +
    front 3 * (lit "::" * (h16Colon ^ 1 * ls32 octet)) +
    front 4 * (lit "::" * ls32 octet) + front 5 * (lit "::" * h16) + front 6 * lit "::"

/-- `((h16 ":"){n} h16)?`. -/
def front (n : ℕ) : RegularExpression UInt8 := opt (h16Colon ^ n * h16)

def ipvFuture : RegularExpression UInt8 :=
  let x := oneOf (bytes xdigit)
  let c := oneOf (bytes userChar)
  lit "v" * (x * (x.star * (lit "." * (c * c.star))))

def ipLiteral : RegularExpression UInt8 :=
  lit "[" * ((ipv6address decOctet front + ipvFuture) * lit "]")

/-- The hosts that need not be a `reg_name`. -/
def literals : RegularExpression UInt8 := ipLiteral + ipv4address decOctet

/-! ## Actions -/

/-- A pointer into the text: the text from there on. -/
abbrev Ptr := List UInt8

/-- The actions of `uri.rl`; `marku` and `markh` are the same. -/
inductive Action
  | mark | saveScheme | savePort | saveUserinfo | saveHost | savePath | saveQuery | saveFragment
  deriving DecidableEq, Repr

/-- The object that `Uri::Create` fills, and `mark`. -/
structure Env where
  uri : Uri := {}
  mark : Option Ptr := none
  deriving DecidableEq, Repr

/-- `std::string(mark, fpc - mark)`. -/
def between (mark fpc : Ptr) : List UInt8 := mark.take (mark.length - fpc.length)

def atoi (p : Ptr) : ℤ := longToInt (strtol 10 p)

/-- An action at `fpc`: `none` where `mark` is `NULL` and must not be. -/
def act (fpc : Ptr) (e : Env) : Action → Option Env
  | .mark => some { e with mark := some fpc }
  | .saveScheme => e.mark.map fun m => ⟨{ e.uri with scheme := between m fpc }, none⟩
  | .savePort => e.mark.map fun m =>
    ⟨if fpc ≠ m then { e.uri with port := atoi m } else e.uri, none⟩
  | .saveUserinfo =>
    some ⟨e.mark.elim e.uri fun m => { e.uri with userinfo := between m fpc }, none⟩
  | .saveHost =>
    some { e with uri := e.mark.elim e.uri fun m => { e.uri with host := between m fpc } }
  | .savePath => e.mark.map fun m => ⟨{ e.uri with path := between m fpc }, none⟩
  | .saveQuery => e.mark.map fun m => ⟨{ e.uri with query := between m fpc }, none⟩
  | .saveFragment => e.mark.map fun m => ⟨{ e.uri with fragment := between m fpc }, none⟩

/-- The actions of a transition, each of equal ones once. -/
def perform (fpc : Ptr) (as : List Action) (e : Env) : Option Env := as.eraseDups.foldlM (act fpc) e

/-! ## States -/

/-- Inside of `pct_encoded`, or not. -/
inductive Pct
  | text | percent | hex
  deriving DecidableEq, Repr

/-- `(ok | pct_encoded)*`. -/
def Pct.step (ok : UInt8 → Bool) : Pct → UInt8 → Option Pct
  | .text, c => if c = 37 then some .percent else if ok c then some .text else none
  | .percent, c => if xdigit c then some .hex else none
  | .hex, c => if xdigit c then some .text else none

/-- The readings of an authority: as `userinfo`, as a host (a `reg_name` or one of the `literals`),
and as the port behind a host. A literal that cannot be completed stays as it is. -/
structure Authority where
  /-- Nothing of the authority was read. -/
  first : Bool := true
  user : Option Pct := some .text
  reg : Option Pct := some .text
  lit : RegularExpression UInt8 := literals
  /-- Nothing of the host was read. -/
  new : Bool := true
  /-- Whether a digit of the port was read. -/
  port : Option Bool := none

namespace Authority

/-- The text read is a host. -/
def isHost (a : Authority) : Bool := a.reg = some .text || a.lit.matchEpsilon

/-- A host may start with the byte. -/
def hostFirst (c : UInt8) : Bool := regChar c || c == 37 || c == 91 || c == 2

def step (a : Authority) (c : UInt8) : Option (List Action × Authority) :=
  if c = 64 then
    if a.user = some .text then
      some ((if a.first then [.mark] else []) ++ [.saveUserinfo], { first := false, user := none })
    else none
  else
    some ((if a.first || (a.new && hostFirst c) then [.mark] else []) ++
        (if c = 58 ∧ a.isHost then (if a.new then [.mark] else []) ++ [.saveHost] else []) ++
        (if digit c ∧ a.port = some false then [.mark] else []),
      { first := false
        user := a.user.bind (Pct.step userChar · c)
        reg := a.reg.bind (Pct.step regChar · c)
        lit := a.lit.deriv c
        new := false
        port := if c = 58 ∧ a.isHost then some false else if digit c then a.port.map fun _ => true
          else none })

/-- The leaving actions of the host or the port. -/
def leaves (a : Authority) : Option (List Action) :=
  if a.isHost then some ((if a.first || a.new then [.mark] else []) ++ [.saveHost])
  else a.port.map fun digits => (if digits then [] else [.mark]) ++ [.savePort]

end Authority

/-- The states: `name` is a scheme, while it can be one, or the first segment of a relative path; a
path behind a scheme and an authority is saved. -/
inductive State
  | start
  | name (scheme : Bool) (k : Pct)
  | colon
  | slash (saved : Bool)
  | authority (saved : Bool) (a : Authority)
  | path (saved : Bool) (k : Pct)
  | query (new : Bool) (k : Pct)
  | fragment (new : Bool) (k : Pct)

namespace State

/-- The leaving actions of a final state. -/
def leaves : State → Option (List Action)
  | .start | .colon | .slash _ | .name _ .text => some []
  | .authority saved a => a.leaves.map (· ++ if saved then [.mark, .savePath] else [])
  | .path saved .text => some (if saved then [.savePath] else [])
  | .query new .text => some ((if new then [.mark] else []) ++ [.saveQuery])
  | .fragment new .text => some ((if new then [.mark] else []) ++ [.saveFragment])
  | _ => none

/-- The transitions to a query and to a fragment. -/
def tail (s : State) (c : UInt8) : Option (List Action × State) :=
  if c = 63 then s.leaves.map (·, .query true .text)
  else if c = 35 then s.leaves.map (·, .fragment true .text)
  else none

/-- A path that starts with the byte, or what may stand behind an empty one. -/
def pathFirst (s : State) (c : UInt8) : Option (List Action × State) :=
  match Pct.step pchar .text c with
  | some k => some ([], .path false k)
  | none => s.tail c

def next : State → UInt8 → Option (List Action × State)
  | .start, c =>
    if alpha c then some ([.mark], .name true .text)
    else if c = 47 then some ([], .slash false)
    else match Pct.step pcharNc .text c with
      | some k => some ([], .name false k)
      | none => State.start.tail c
  | .name scheme k, c =>
    if c = 58 then if scheme then some ([.saveScheme], .colon) else none
    else match Pct.step pcharNc k c with
      | some k' => some ([], .name (scheme && schemeChar c) k')
      | none => if c = 47 ∧ k = .text then some ([], .path false .text) else (State.name scheme k).tail c
  | .colon, c => if c = 47 then some ([], .slash true) else State.colon.pathFirst c
  | .slash saved, c =>
    if c = 47 then some ([], .authority saved {}) else (State.slash saved).pathFirst c
  | .authority saved a, c =>
    if c = 47 then a.leaves.map fun as => (as ++ if saved then [.mark] else [], .path saved .text)
    else if c = 63 ∨ c = 35 then (State.authority saved a).tail c
    else (a.step c).map fun r => (r.1, .authority saved r.2)
  | .path saved k, c =>
    match Pct.step pathChar k c with
    | some k' => some ([], .path saved k')
    | none => (State.path saved k).tail c
  | .query new k, c =>
    match Pct.step queryChar k c with
    | some k' => some (if new then [.mark] else [], .query false k')
    | none => (State.query new k).tail c
  | .fragment new k, c =>
    (Pct.step queryChar k c).map fun k' => (if new then [.mark] else [], .fragment false k')

end State

/-! ## `Uri::Create` -/

inductive Outcome
  | null
  | threw
  | returned (u : Uri)
  deriving DecidableEq, Repr

/-- The machine from a state on, over the rest of the text. -/
def run (s : State) (e : Env) : Ptr → Outcome
  | [] => match s.leaves with
    | none => .null
    | some as => (perform [] as e).elim .threw fun e' => .returned e'.uri
  | c :: w => match s.next c with
    | none => .null
    | some (as, s') => (perform (c :: w) as e).elim .threw fun e' => run s' e' w

def create (s : List UInt8) : Outcome := run .start {} s

/-! ## Getters and `dump` -/

def isDefaultPort (u : Uri) : Bool :=
  if u.port = 0 then true
  else if u.scheme = ascii "http" ∨ u.scheme = ascii "ws" then u.port = 80
  else if u.scheme = ascii "https" ∨ u.scheme = ascii "wss" then u.port = 443
  else false

def getPath (u : Uri) : List UInt8 := if u.path = [] then ascii "/" else u.path

def getPort (u : Uri) : ℤ :=
  if u.port ≠ 0 then u.port
  else if u.scheme = ascii "http" ∨ u.scheme = ascii "ws" then 80
  else if u.scheme = ascii "https" ∨ u.scheme = ascii "wss" then 443
  else u.port

/-- The decimal digits of a number. -/
def decimal (n : ℕ) : List UInt8 :=
  if n = 0 then [48] else ((Nat.digits 10 n).map fun d => (48 + d).toUInt8).reverse

/-- `std::to_string`. -/
def intToString (v : ℤ) : List UInt8 := (if v < 0 then [45] else []) ++ decimal v.natAbs

def toString (u : Uri) : List UInt8 :=
  u.scheme ++ ascii "://" ++ u.userinfo ++ (if u.userinfo = [] then [] else ascii "@") ++ u.host ++
    (if u.isDefaultPort then [] else ascii ":" ++ intToString u.port) ++ u.getPath ++
    (if u.query = [] then [] else ascii "?") ++ u.query ++
    (if u.fragment = [] then [] else ascii "#") ++ u.fragment

end Uri

end CoroutineScheduler

import Rdb.Lib.Bytes
import Rdb.Lib.Incremental

/-!
# The RESP codec

`parse_command` reads one command from the buffer of a connection: a multibulk
(`*N`, then `N` bulk strings) or an inline line with quotes. In place of the
number of bytes consumed the model returns the rest of the buffer. Only the cap
on an unterminated inline line makes an answer depend on how much has arrived
(`stable_parseCommand`).
-/

namespace Rdb.Resp

open List Lib Lib.Parser

def maxMultibulkCount : Nat := 1048576

def maxBulkLen : Nat := 512 * 1024 * 1024

def maxInlineLen : Nat := 64 * 1024

/-- An optional `-` and digits, possibly none; the value wraps to 64 bits. -/
def parseInt (b : Bytes) : Option Int :=
  let sign := b.head? = some 0x2d
  let ds := if sign then b.tail else b
  if ds.all isDigit then some ((if sign then -decVal ds else decVal ds : Int).bmod (2 ^ 64))
  else none

/-- A length of at most `limit` that ends with CRLF. -/
def header (limit : Nat) (msg : String) : Parser UInt8 String Nat := do
  let line ← upTo 0x0a fun _ => none
  if line.getLast? ≠ some 0x0d then fail msg
  else match parseInt line.dropLast with
    | some n => if 0 ≤ n ∧ n ≤ limit then pure n.toNat else fail msg
    | none => fail msg

def bulk : Parser UInt8 String Bytes := do
  let b ← takeN 1
  if b ≠ [0x24] then
    fail ("expected '$', got '" ++ String.ofList (b.map fun x => Char.ofNat x.toNat) ++ "'")
  else
    let n ← header maxBulkLen "invalid bulk length"
    let data ← takeN (n + 2)
    if data.drop n = [0x0d, 0x0a] then pure (data.take n) else fail "invalid bulk length"

def bulks : Nat → Parser UInt8 String (List Bytes)
  | 0 => pure []
  | n + 1 => do
    let arg ← bulk
    let args ← bulks n
    pure (arg :: args)

/-- What follows the `*`. -/
def parseMultibulk : Parser UInt8 String (List Bytes) := do
  let count ← header maxMultibulkCount "invalid multibulk length"
  bulks count

def unescape (c : UInt8) : UInt8 :=
  if c = 0x6e then 0x0a else if c = 0x72 then 0x0d else if c = 0x74 then 0x09 else c

def unbalanced : String := "unbalanced quotes in request"

/-- The arguments of an inline line. `tok` is the token so far, `quote` the quote it stands in,
`escape` whether a backslash came last. -/
def tokens (args : List Bytes) (tok : Bytes) :
    Option UInt8 → Bool → Bytes → Except String (List Bytes)
  | some _, _, [] => .error unbalanced
  | none, _, [] => .ok (if tok = [] then args else args ++ [tok])
  | none, _, c :: line =>
    if c = 0x20 then tokens (if tok = [] then args else args ++ [tok]) [] none false line
    else if c = 0x22 ∨ c = 0x27 then
      -- a quote is honoured only at the start of a token
      if tok ≠ [] then .error unbalanced else tokens args [] (some c) false line
    else tokens args (tok ++ [c]) none false line
  | some q, true, c :: line => tokens args (tok ++ [unescape c]) (some q) false line
  | some q, false, c :: line =>
    if c = q then
      if line.head?.any (· ≠ 0x20) then .error unbalanced
      else tokens (args ++ [tok]) [] none false line
    else if c = 0x5c then tokens args tok (some q) true line
    else tokens args (tok ++ [c]) (some q) false line

def tooBigInline : String := "Protocol error: too big inline request"

def parseTelnet : Parser UInt8 String (List Bytes) := do
  let line ← upTo 0x0a fun buf => if maxInlineLen < buf.length then some tooBigInline else none
  ofExcept (tokens [] [] none false (if line.getLast? = some 0x0d then line.dropLast else line))

def parseCommand : Parser UInt8 String (List Bytes)
  | [] => .error none
  | 0x2a :: buf => parseMultibulk buf
  | 0x24 :: _ => .error (some "invalid message")
  | buf => parseTelnet buf

def crlf : Bytes := [0x0d, 0x0a]

def appendBulk (data : Bytes) : Bytes := 0x24 :: decimal data.length ++ crlf ++ data ++ crlf

def appendArray (count : Nat) : Bytes := 0x2a :: decimal count ++ crlf

/-- A command as a client sends it. -/
def encodeCommand (args : List Bytes) : Bytes := appendArray args.length ++ args.flatMap appendBulk

/-! ## Stability -/

variable {E : String → Prop} {limit n : Nat} {msg : String} {buf rest : Bytes} {args : List Bytes}

theorem stable_header : (header limit msg).Stable E := by
  refine .bind (.upTo (by simp)) fun line => ?_
  split
  · exact .fail msg
  · split
    · split
      · exact .pure _
      · exact .fail msg
    · exact .fail msg

theorem stable_bulk : bulk.Stable E := by
  refine .bind (.takeN 1) fun b => ?_
  split
  · exact .fail _
  · refine .bind stable_header fun n => .bind (.takeN _) fun data => ?_
    split
    · exact .pure _
    · exact .fail _

theorem stable_bulks (n : Nat) : (bulks n).Stable E := by
  induction n with
  | zero => exact .pure []
  | succ n ih => exact .bind stable_bulk fun _ => .bind ih fun _ => .pure _

theorem stable_parseMultibulk : parseMultibulk.Stable E := .bind stable_header stable_bulks

theorem stable_parseTelnet : parseTelnet.Stable (· ≠ tooBigInline) := by
  refine .bind (.upTo fun h => ?_) fun line => .ofExcept _
  split at h <;> simp_all

/-- The first byte decides which parser reads the command. -/
theorem parseCommand_cases (b : UInt8) : (∀ buf, parseCommand (b :: buf) = parseMultibulk buf) ∨
    (∀ buf, parseCommand (b :: buf) = .error (some "invalid message")) ∨
      ∀ buf, parseCommand (b :: buf) = parseTelnet (b :: buf) := by
  by_cases h : b = 0x2a
  · exact .inl fun buf => by rw [h]; rfl
  · by_cases h' : b = 0x24
    · exact .inr (.inl fun buf => by rw [h']; rfl)
    · exact .inr (.inr fun buf => by unfold parseCommand; split <;> simp_all)

theorem stable_parseCommand : parseCommand.Stable (· ≠ tooBigInline) where
  ok {buf args rest} h := by
    cases buf with
    | nil => cases h
    | cons b buf =>
      obtain hc | hc | hc := parseCommand_cases b <;> simp only [cons_append, hc] at h ⊢
      · obtain ⟨hl, hmore⟩ := (stable_parseMultibulk (E := fun _ => True)).ok h
        exact ⟨hl.trans (by simp), hmore⟩
      · cases h
      · exact stable_parseTelnet.ok h
  error {buf e} h he more := by
    cases buf with
    | nil => cases h
    | cons b buf =>
      obtain hc | hc | hc := parseCommand_cases b <;> simp only [cons_append, hc] at h ⊢
      · exact stable_parseMultibulk.error h trivial more (E := fun _ => True)
      · exact h
      · exact stable_parseTelnet.error h he more

theorem parseCommand_shorter (h : parseCommand buf = .ok (args, rest)) :
    rest.length < buf.length := by
  cases buf with
  | nil => cases h
  | cons b buf =>
    obtain hc | hc | hc := parseCommand_cases b <;> rw [hc] at h
    · exact Nat.lt_succ_of_le ((stable_parseMultibulk (E := fun _ => True)).ok h).1
    · cases h
    · cases hl : upTo 0x0a (fun buf => if maxInlineLen < buf.length then some tooBigInline
        else none) (b :: buf) with
      | error o => rw [parseTelnet, bind_of_error hl] at h; cases h
      | ok r =>
        -- the newline at least is consumed
        rw [parseTelnet, bind_of_ok hl] at h
        have := ((Stable.ofExcept (E := fun _ => True) _).ok h).1
        rw [(upTo_eq_ok.mp hl).1, length_append, length_cons]
        omega

/-! ## Round trip -/

theorem parseInt_decimal (h : n < 2 ^ 63) : parseInt (decimal n) = some (n : Int) := by
  have hsign : (decimal n).head? ≠ some 0x2d := fun e => by
    have := isDigit_of_mem_decimal (n := n) (mem_of_mem_head? e)
    revert this
    decide
  have hall : (decimal n).all isDigit :=
    all_eq_true.mpr fun _ hb => isDigit_of_mem_decimal hb
  simp only [parseInt, hsign, if_false, hall, if_true, decVal_decimal]
  rw [Int.bmod_eq_of_le] <;> omega

theorem header_decimal (h : n ≤ limit) (hl : limit < 2 ^ 63) :
    header limit msg (decimal n ++ crlf ++ rest) = .ok (n, rest) := by
  have hline : upTo (ε := String) 0x0a (fun _ => none) (decimal n ++ crlf ++ rest) =
      .ok (decimal n ++ [0x0d], rest) := by
    refine upTo_eq_ok.mpr ⟨by simp [crlf], fun hm => ?_⟩
    rcases mem_append.mp hm with hm | hm
    · exact absurd (isDigit_of_mem_decimal hm) (by decide)
    · revert hm
      decide
  have hle : (0 : Int) ≤ n ∧ (n : Int) ≤ limit := by omega
  rw [header, bind_of_ok hline]
  simp [parseInt_decimal (h.trans_lt hl), hle]
  rfl

theorem bulk_appendBulk {data : Bytes} (h : data.length ≤ maxBulkLen) :
    bulk (appendBulk data ++ rest) = .ok (data, rest) := by
  have hmark : takeN (ε := String) 1 (appendBulk data ++ rest) =
      .ok ([0x24], decimal data.length ++ crlf ++ (data ++ crlf ++ rest)) :=
    takeN_eq_ok.mpr ⟨by simp [appendBulk], rfl⟩
  have hdata : takeN (ε := String) (data.length + 2) (data ++ crlf ++ rest) =
      .ok (data ++ crlf, rest) := takeN_eq_ok.mpr ⟨rfl, by simp [crlf]⟩
  rw [bulk, bind_of_ok hmark, if_neg (by simp),
    bind_of_ok (header_decimal h (by decide)), bind_of_ok hdata]
  simp [crlf]
  rfl

theorem bulks_flatMap (h : ∀ arg ∈ args, arg.length ≤ maxBulkLen) :
    bulks args.length (args.flatMap appendBulk ++ rest) = .ok (args, rest) := by
  induction args with
  | nil => rfl
  | cons arg args ih =>
    rw [forall_mem_cons] at h
    rw [flatMap_cons, append_assoc, length_cons, bulks, bind_of_ok (bulk_appendBulk h.1),
      bind_of_ok (ih h.2)]
    rfl

/-- Within the limits of the protocol. -/
def Sendable (args : List Bytes) : Prop :=
  args.length ≤ maxMultibulkCount ∧ ∀ arg ∈ args, arg.length ≤ maxBulkLen
  deriving Decidable

theorem parseCommand_encodeCommand (h : Sendable args) (rest : Bytes) :
    parseCommand (encodeCommand args ++ rest) = .ok (args, rest) := by
  rw [show encodeCommand args ++ rest =
    0x2a :: (decimal args.length ++ crlf ++ (args.flatMap appendBulk ++ rest)) by
      simp [encodeCommand, appendArray]]
  change parseMultibulk _ = _
  rw [parseMultibulk, bind_of_ok (header_decimal h.1 (by decide)), bulks_flatMap h.2]

theorem parseCommand_waits {more : Bytes} (h : Sendable args)
    (hb : encodeCommand args = buf ++ more) (hm : more ≠ []) : parseCommand buf = .error none := by
  have hw := parseCommand_encodeCommand h []
  rw [append_nil, hb] at hw
  cases buf with
  | nil => rfl
  | cons b buf =>
    obtain rfl : 0x2a = b := (cons.inj hb).1
    exact stable_parseMultibulk.waits hw hm

/-- A command that is sent is read back, and only when all of it has arrived. -/
theorem command_round_trip (args : List Bytes) (h : Sendable args) :
    (∀ rest, parseCommand (encodeCommand args ++ rest) = .ok (args, rest)) ∧
      ∀ buf more, encodeCommand args = buf ++ more → more ≠ [] →
        parseCommand buf = .error none :=
  ⟨parseCommand_encodeCommand h, fun _ _ => parseCommand_waits h⟩

theorem command_round_trip_ping :
    parseCommand (encodeCommand [[0x50, 0x49, 0x4e, 0x47]] ++ crlf) =
      .ok ([[0x50, 0x49, 0x4e, 0x47]], crlf) :=
  (command_round_trip _ (by decide +kernel)).1 crlf

end Rdb.Resp

import Zryna.Foundation.Checked
import Zryna.Foundation.HeaderText

/-!
# Request framing of the loopback transport

`read` takes one narrow HTTP/1.1 frame off a socket: header bytes one at a time up to the first
empty line, `parse` on them, the body by count, and a look at what is already buffered behind it.

A socket is the chunks that arrive at it, one after the other. `read_eq_ok` says what `read` accepts in
terms of the bytes alone but for that last look, which only sees the chunk that the body ends
in.
-/

namespace Zryna.Driver.ServerTransport

open HeaderText List

inductive Error where
  | framing
  | limit
deriving DecidableEq

/-- A validated configuration: a port of the loopback address, and bounds. -/
structure Config where
  port : UInt16
  headerBytes : ℕ
  bodyBytes : ℕ
  headerBytes_ge : 64 ≤ headerBytes
  headerBytes_le : headerBytes ≤ 8192
  bodyBytes_pos : 1 ≤ bodyBytes
  bodyBytes_le : bodyBytes ≤ 65536

/-- The address as it is printed. -/
def Config.address (config : Config) : List UInt8 :=
  ascii "127.0.0.1:" ++ digits config.port.toNat

/-! ### The socket -/

/-- The chunks that have not been read. The first of them has arrived, the others will. -/
abbrev Socket := List (List UInt8)

/-- Reads up to a number of bytes, and none only at the end of the stream. -/
def Socket.read (count : ℕ) : Socket → List UInt8 × Socket
  | [] => ([], [])
  | [] :: socket => Socket.read count socket
  | chunk :: socket => (chunk.take count, chunk.drop count :: socket)

/-- Whether there is something to read at once. -/
def Socket.hasExtra : Socket → Bool
  | [] => false
  | chunk :: _ => !chunk.isEmpty

/-! ### The code -/

/-- Reads header bytes up to an empty line, as long as there is room for them. -/
def readHeader : (room : ℕ) → List UInt8 → Socket → Except Error (List UInt8 × Socket)
  | room, header, socket =>
    if (crlf ++ crlf).isSuffixOf header then .ok (header, socket)
    else match room with
    | 0 => .error .limit
    | room + 1 =>
      match socket.read 1 with
      | ([], _) => .error .framing
      | (byte :: _, socket) =>
        if byte = lf ∧ header.getLast? ≠ some cr then .error .framing
        else readHeader room (header ++ [byte]) socket

def readBody (length : ℕ) (socket : Socket) : Except Error (List UInt8 × Socket) :=
  if length = 0 then .ok ([], socket)
  else match _h : socket.read length with
  | ([], _) => .error .framing
  | (first :: bytes, socket) =>
    match readBody (length - (first :: bytes).length) socket with
    | .error error => .error error
    | .ok (rest, socket) => .ok (first :: bytes ++ rest, socket)
termination_by length
decreasing_by
  rw [length_cons]
  omega

/-- What the field lines have said so far. -/
structure Fields where
  names : List (List UInt8)
  length : Option ℕ
  host : Bool
  close : Bool

def nameByte (byte : UInt8) : Bool :=
  isDigit byte || (0x41 ≤ byte && byte ≤ 0x5a) || (0x61 ≤ byte && byte ≤ 0x7a) || byte = 0x2d

def valueByte (byte : UInt8) : Bool := 0x20 ≤ byte && byte ≤ 0x7e

def pathByte (byte : UInt8) : Bool := 0x21 ≤ byte && byte ≤ 0x7e && byte ≠ 0x23

def forbidden : List (List UInt8) :=
  ["transfer-encoding", "upgrade", "expect", "trailer"].map ascii

def fieldLine (config : Config) (fields : Fields) (line : List UInt8) : Except Error Fields :=
  match splitOnce colon line with
  | none => .error .framing
  | some (name, value) =>
    if name.isEmpty || !name.all nameByte || !value.all valueByte then .error .framing
    else if fields.names.length = 32 then .error .limit
    else if fields.names.any fun existing => eqIgnoreCase existing name then .error .framing
    else
      let fields := { fields with names := fields.names ++ [name] }
      let value := trim (· = space) value
      if eqIgnoreCase name (ascii "host") then
        if value ≠ config.address then .error .framing else .ok { fields with host := true }
      else if eqIgnoreCase name (ascii "content-length") then
        if value.isEmpty || value.length > 10 || !value.all isDigit
            || (value.length > 1 && value.head? = some 0x30) then .error .framing
        else if decimal value ≥ 2 ^ 64 then .error .limit
        else if decimal value > config.bodyBytes then .error .limit
        else .ok { fields with length := some (decimal value) }
      else if eqIgnoreCase name (ascii "connection") then
        if !eqIgnoreCase value (ascii "close") then .error .framing
        else .ok { fields with close := true }
      else if forbidden.any fun name' => eqIgnoreCase name name' then .error .framing
      else .ok fields

def parse (bytes : List UInt8) (config : Config) : Except Error (List UInt8 × List UInt8 × ℕ) :=
  if Utf8.valid (bytes.map UInt8.toNat) = false then .error .framing
  else if ¬(crlf ++ crlf).isSuffixOf bytes then .error .framing
  else match splitCrlf (bytes.take (bytes.length - 4)) with
  | [] => .error .framing
  | request :: lines =>
    match request.splitOn space with
    | [method, path, version] =>
      if version ≠ ascii "HTTP/1.1" || !(method = ascii "GET" || method = ascii "POST")
          || path.head? ≠ some 0x2f || path.length > 256 || !path.all pathByte then .error .framing
      else
        match lines.foldlM (fieldLine config) ⟨[], none, false, false⟩ with
        | .error error => .error error
        | .ok fields =>
          if !fields.host || !fields.close then .error .framing
          else match fields.length with
          | none => .error .framing
          | some length => .ok (method, path, length)
    | _ => .error .framing

/-- Reads one request. -/
def read (socket : Socket) (config : Config) :
    Except Error (List UInt8 × List UInt8 × List UInt8) := do
  let (header, socket) ← readHeader config.headerBytes [] socket
  let (method, path, length) ← parse header config
  let (body, socket) ← readBody length socket
  if socket.hasExtra then .error .framing
  .ok (method, path, body)

/-! ### Positions in the stream -/

/-- What is left of a socket behind a number of bytes. -/
def Socket.skip : ℕ → Socket → Socket
  | _, [] => []
  | count, chunk :: socket =>
    if count ≤ chunk.length then chunk.drop count :: socket
    else Socket.skip (count - chunk.length) socket

theorem Socket.skip_cons (count : ℕ) (chunk : List UInt8) (socket : Socket) :
    Socket.skip count (chunk :: socket) = if count ≤ chunk.length then chunk.drop count :: socket
      else Socket.skip (count - chunk.length) socket := rfl

theorem Socket.flatten_skip (count : ℕ) (socket : Socket) :
    (socket.skip count).flatten = socket.flatten.drop count := by
  induction socket generalizing count with
  | nil => exact drop_nil.symm
  | cons chunk socket ih =>
    rw [Socket.skip_cons, flatten_cons, drop_append]
    split_ifs with h
    · rw [flatten_cons, Nat.sub_eq_zero_of_le h, drop_zero]
    · rw [ih, drop_eq_nil_of_le (Nat.le_of_not_le h), nil_append]

theorem Socket.skip_skip (count count' : ℕ) (socket : Socket) :
    (socket.skip count).skip count' = socket.skip (count + count') := by
  induction socket generalizing count with
  | nil => rfl
  | cons chunk socket ih =>
    rw [Socket.skip_cons]
    split_ifs with h
    · rw [Socket.skip_cons, Socket.skip_cons, length_drop]
      split_ifs with h' h'' h''
      · rw [drop_drop]
      · omega
      · omega
      · congr 1
        omega
    · rw [ih, Socket.skip_cons, if_neg (by omega)]
      congr 1
      omega

variable {count : ℕ} {socket : Socket}

/-- A read takes some bytes off the front, unless there are none. -/
theorem Socket.read_cases (hcount : 0 < count) (socket : Socket) :
    socket.flatten = [] ∧ (socket.read count).1 = []
      ∨ ∃ got, 0 < got ∧ got ≤ count ∧ got ≤ socket.flatten.length
        ∧ socket.read count = (socket.flatten.take got, socket.skip got) := by
  fun_induction Socket.read count socket with
  | case1 => exact Or.inl ⟨rfl, rfl⟩
  | case2 socket ih =>
    refine ih.imp (fun h => h) ?_
    rintro ⟨got, hpos, hle, hlength, hread⟩
    refine ⟨got, hpos, hle, hlength, ?_⟩
    rw [hread, Socket.skip_cons, if_neg (by rw [length_nil]; exact hpos.not_ge)]
    rfl
  | case3 chunk socket hne =>
    have hchunk : 0 < chunk.length := length_pos_iff.mpr hne
    refine Or.inr ⟨min count chunk.length, lt_min hcount hchunk, min_le_left _ _, ?_, ?_⟩
    · rw [flatten_cons, length_append]
      exact (min_le_right _ _).trans (Nat.le_add_right _ _)
    · rw [flatten_cons, take_append_of_le_length (min_le_right _ _), Socket.skip_cons,
        if_pos (min_le_right _ _)]
      rcases le_total count chunk.length with h | h
      · rw [min_eq_left h]
      · rw [min_eq_right h, take_of_length_le h, drop_of_length_le h, take_length,
          drop_length]

/-- Nothing is left of the chunk that some bytes end in. -/
theorem Socket.hasExtra_skip (hpos : 0 < count)
    (hcount : count ≤ socket.flatten.length) : (socket.skip count).hasExtra = false
      ↔ ∃ taken later, socket = taken ++ later ∧ taken.flatten.length = count := by
  induction socket generalizing count with
  | nil => exact absurd hcount hpos.not_ge
  | cons chunk socket ih =>
    rw [Socket.skip_cons]
    split_ifs with h
    · show (!(chunk.drop count).isEmpty) = false ↔ _
      rw [Bool.not_eq_false', List.isEmpty_iff, drop_eq_nil_iff]
      constructor
      · intro hle
        exact ⟨[chunk], socket, rfl, by simpa using le_antisymm hle h⟩
      · rintro ⟨_ | ⟨first, taken⟩, later, heq, rfl⟩
        · exact absurd hpos (lt_irrefl 0)
        · rw [(List.cons.inj heq).1, flatten_cons, length_append]
          exact Nat.le_add_right _ _
    · rw [flatten_cons, length_append] at hcount
      rw [ih (by omega) (by omega)]
      constructor
      · rintro ⟨taken, later, rfl, htaken⟩
        refine ⟨chunk :: taken, later, rfl, ?_⟩
        rw [flatten_cons, length_append, htaken]
        omega
      · rintro ⟨_ | ⟨first, taken⟩, later, heq, rfl⟩
        · exact absurd hpos (lt_irrefl 0)
        · obtain ⟨rfl, rfl⟩ := List.cons.inj heq
          refine ⟨taken, later, rfl, ?_⟩
          rw [flatten_cons, length_append, Nat.add_sub_cancel_left]

/-- The header that is read off a stream. -/
def takeHeader : (room : ℕ) → List UInt8 → List UInt8 → Except Error (List UInt8)
  | room, header, stream =>
    if (crlf ++ crlf).isSuffixOf header then .ok header
    else match room, stream with
    | 0, _ => .error .limit
    | _ + 1, [] => .error .framing
    | room + 1, byte :: stream =>
      if byte = lf ∧ header.getLast? ≠ some cr then .error .framing
      else takeHeader room (header ++ [byte]) stream

variable {header : List UInt8}

theorem takeHeader_end (h : (crlf ++ crlf).isSuffixOf header = true)
    (room : ℕ) (stream : List UInt8) : takeHeader room header stream = .ok header := by
  cases room <;> cases stream <;> exact if_pos h

section

variable (h : ¬(crlf ++ crlf).isSuffixOf header = true)

include h

theorem takeHeader_full (stream : List UInt8) : takeHeader 0 header stream = .error .limit :=
  if_neg h

theorem takeHeader_nil (room : ℕ) : takeHeader (room + 1) header [] = .error .framing :=
  if_neg h

theorem takeHeader_cons (room : ℕ) (byte : UInt8) (stream : List UInt8) :
    takeHeader (room + 1) header (byte :: stream)
      = if byte = lf ∧ header.getLast? ≠ some cr then .error .framing
        else takeHeader room (header ++ [byte]) stream :=
  if_neg h

end

theorem takeHeader_le {room : ℕ} {stream taken : List UInt8}
    (h : takeHeader room header stream = .ok taken) :
    ∃ bytes rest, stream = bytes ++ rest ∧ taken = header ++ bytes ∧ bytes.length ≤ room := by
  fun_induction takeHeader room header stream with
  | case1 => exact ⟨[], _, rfl, by rw [← Except.ok.inj h, append_nil], Nat.zero_le _⟩
  | case2 | case3 | case4 => cases h
  | case5 header _ room byte stream hlf ih =>
    obtain ⟨bytes, rest, rfl, rfl, hle⟩ := ih h
    exact ⟨byte :: bytes, rest, rfl, by rw [append_assoc]; rfl, Nat.succ_le_succ hle⟩

theorem Socket.skip_zero (socket : Socket) : socket.skip 0 = socket := by
  cases socket with
  | nil => rfl
  | cons chunk socket => rw [Socket.skip_cons, if_pos (Nat.zero_le _), drop_zero]

theorem readHeader_end (h : (crlf ++ crlf).isSuffixOf header = true)
    (room : ℕ) (socket : Socket) : readHeader room header socket
      = .ok (header, socket.skip (header.length - header.length)) := by
  rw [Nat.sub_self, Socket.skip_zero]
  cases room <;> exact if_pos h

theorem readHeader_eq (room : ℕ) (header : List UInt8) (socket : Socket) :
    readHeader room header socket = match takeHeader room header socket.flatten with
      | .error error => .error error
      | .ok taken => .ok (taken, socket.skip (taken.length - header.length)) := by
  induction room generalizing header socket with
  | zero =>
    by_cases hend : (crlf ++ crlf).isSuffixOf header = true
    · rw [takeHeader_end hend, readHeader_end hend]
    · rw [takeHeader_full hend]
      exact if_neg hend
  | succ room ih =>
    by_cases hend : (crlf ++ crlf).isSuffixOf header = true
    · rw [takeHeader_end hend, readHeader_end hend]
    refine (if_neg hend).trans ?_
    rcases Socket.read_cases Nat.one_pos socket with ⟨hnil, hread⟩ | ⟨got, hpos, hle, hlength, hread⟩
    · rw [hnil, takeHeader_nil hend]
      generalize socket.read 1 = result at hread
      obtain ⟨bytes, socket'⟩ := result
      obtain rfl := hread
      rfl
    obtain rfl := le_antisymm hle hpos
    have hskip := Socket.flatten_skip 1 socket
    obtain ⟨byte, stream, hstream⟩ := exists_cons_of_length_pos hlength
    rw [hstream] at hskip
    rw [hread, hstream, takeHeader_cons hend]
    dsimp only [take_succ_cons]
    split_ifs with hlf
    · rfl
    rw [ih, hskip]
    cases htake : takeHeader room (header ++ [byte]) stream with
    | error error =>
      rw [show (byte :: stream).drop 1 = stream from rfl, htake]
    | ok taken =>
      obtain ⟨bytes, rest, -, rfl, -⟩ := takeHeader_le htake
      rw [show (byte :: stream).drop 1 = stream from rfl, htake]
      dsimp only
      rw [Socket.skip_skip]
      congr 3
      simp only [length_append, length_singleton]
      omega

/-- The body is read by count, whatever chunks it comes in. -/
theorem readBody_eq (length : ℕ) (socket : Socket) : readBody length socket
    = if socket.flatten.length < length then .error .framing
      else .ok (socket.flatten.take length, socket.skip length) := by
  induction length using Nat.strong_induction_on generalizing socket with
  | _ length ih =>
    rw [readBody]
    by_cases hzero : length = 0
    · rw [if_pos hzero, hzero, if_neg (Nat.not_lt_zero _), Socket.skip_zero, take_zero]
    rw [if_neg hzero]
    have hlength : 0 < length := Nat.pos_of_ne_zero hzero
    rcases Socket.read_cases hlength socket with ⟨hnil, hread⟩ | ⟨got, hpos, hle, hgot, hread⟩
    · rw [hnil, length_nil, if_pos hlength]
      split
      · rfl
      · next h =>
        rw [h] at hread
        exact absurd hread (cons_ne_nil _ _)
    · split
      · next h =>
        rw [hread] at h
        have := congrArg List.length (Prod.mk.inj h).1
        rw [length_take, length_nil] at this
        omega
      · next first bytes socket' h =>
        rw [hread] at h
        obtain ⟨hbytes, rfl⟩ := Prod.mk.inj h
        have hcount : (first :: bytes).length = got := by
          rw [← hbytes, length_take, Nat.min_eq_left hgot]
        rw [ih _ (by omega), Socket.flatten_skip, length_drop, hcount, ← hbytes]
        by_cases hshort : socket.flatten.length < length
        · rw [if_pos hshort, if_pos (by omega)]
        · rw [if_neg hshort, if_neg (by omega)]
          dsimp only
          rw [Socket.skip_skip, ← take_add, Nat.add_sub_cancel' hle]

/-- What is read depends on the chunks only by what has arrived behind the body. -/
theorem read_eq_ok {config : Config} {method path body : List UInt8} :
    read socket config = .ok (method, path, body) ↔ ∃ header rest,
      takeHeader config.headerBytes [] socket.flatten = .ok header
      ∧ parse header config = .ok (method, path, body.length)
      ∧ socket.flatten = header ++ body ++ rest
      ∧ (socket.skip (header.length + body.length)).hasExtra = false := by
  rw [read, readHeader_eq]
  cases htake : takeHeader config.headerBytes [] socket.flatten with
  | error error => exact ⟨nofun, nofun⟩
  | ok header =>
    obtain ⟨bytes, stream, hstream, rfl, -⟩ := takeHeader_le htake
    have hdrop : socket.flatten.drop header.length = stream := by rw [hstream, drop_left]
    show (parse header config >>= _) = _ ↔ _
    rw [Checked.bind_eq_ok]
    constructor
    · rintro ⟨⟨method', path', length⟩, hparse, h⟩
      dsimp only at h
      rw [length_nil, Nat.sub_zero, readBody_eq, Socket.flatten_skip, Socket.skip_skip, hdrop,
        Checked.bind_eq_ok] at h
      obtain ⟨⟨body', socket'⟩, hbody, h⟩ := h
      rw [Checked.ite_error_eq_ok, Except.ok.injEq, Prod.mk.injEq] at hbody
      obtain ⟨hlength, rfl, rfl⟩ := hbody
      dsimp only at h
      rw [Checked.ite_error_bind_eq_ok] at h
      obtain ⟨hextra, h⟩ := h
      obtain ⟨rfl, hrest⟩ := Prod.mk.inj (Except.ok.inj h)
      cases hrest
      have htaken : (stream.take length).length = length := by
        rw [length_take, Nat.min_eq_left (Nat.le_of_not_lt hlength)]
      refine ⟨header, stream.drop length, rfl, by rw [htaken, hparse], ?_, ?_⟩
      · rw [append_assoc, take_append_drop, hstream]
      · rw [htaken]
        exact (Bool.not_eq_true _).mp hextra
    · rintro ⟨header, rest, hheader, hparse, hflat, hextra⟩
      cases hheader
      refine ⟨(method, path, body.length), hparse, ?_⟩
      have hbody : stream = body ++ rest := by
        rw [hstream, append_assoc] at hflat
        exact append_cancel_left hflat
      dsimp only
      rw [length_nil, Nat.sub_zero, readBody_eq, Socket.flatten_skip, Socket.skip_skip, hdrop, hbody,
        if_neg (by rw [length_append]; omega), take_left]
      show (if _ then _ else _) = _
      rw [hextra]
      rfl

end Zryna.Driver.ServerTransport

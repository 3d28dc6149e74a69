import OsbKernel.User.Grep

/-!
# `grep` and the sizes of its reads

The loops of `grep` over its buffer.  A store outside of `buf`, and a read that runs off its end,
give `none`.
-/

namespace OsbKernel.Grep

open Function Paging

def bufSize : Nat := 1024

def put (buf : Nat → Byte) (i : Nat) (b : Byte) : Option (Nat → Byte) :=
  if i < bufSize then some (update buf i b) else none

/-- `bytes` are stored from `buf + i` on. -/
def putAll (buf : Nat → Byte) (i : Nat) (bytes : List Byte) : Option (Nat → Byte) :=
  if i + bytes.length ≤ bufSize then
    some fun j => if i ≤ j ∧ j < i + bytes.length then bytes.getD (j - i) 0 else buf j
  else none

def moveDown (buf : Nat → Byte) (p n : Nat) : Option (Nat → Byte) :=
  if n ≤ bufSize then some fun j => if j < n then buf (p + j) else buf j else none

/-- The bytes from `buf + p` to `buf + q`. -/
def bytes (buf : Nat → Byte) (p q : Nat) : List Byte := (List.range' p (q - p)).map buf

/-- `strchr`: the place of `c` from the start on, if it comes before the NUL. -/
def strchr (c : Byte) : List Byte → Option (Option Nat)
  | [] => none
  | b :: rest =>
    if b = 0 then some none
    else if b = c then some (some 0)
    else (strchr c rest).map (·.map (· + 1))

/-- The inner loop of `grep` from `p` on, with the rounds that are left: the buffer, `p` and the
output. -/
def lines (pattern : List Byte) :
    Nat → (Nat → Byte) → Nat → List Byte → Option ((Nat → Byte) × Nat × List Byte)
  | 0, _, _, _ => none
  | rounds + 1, buf, p, out => do
    match ← strchr (ch '\n') (bytes buf p bufSize) with
    | none => return (buf, p, out)
    | some k =>
      let q := p + k
      let buf ← put buf q 0
      if ← grepMatch pattern (bytes buf p bufSize) then
        let buf ← put buf q (ch '\n')
        lines pattern rounds buf (q + 1) (out ++ bytes buf p (q + 1))
      else lines pattern rounds buf (q + 1) out

/-- What `read` returns when it is asked for `len` bytes and would like to return `want`. -/
def readChunk (want len : Nat) (stream : List Byte) : List Byte := stream.take (min (max 1 want) len)

/-- The outer loop of `grep` from read number `k` on, with the rounds that are left: the output.
`split k` is what read number `k` would like to return. -/
def grepLoop (pattern : List Byte) (split : Nat → Nat) :
    Nat → Nat → (Nat → Byte) → Nat → List Byte → List Byte → Option (List Byte)
  | 0, _, _, _, _, _ => none
  | rounds + 1, k, buf, m, stream, out =>
    let chunk := readChunk (split k) (bufSize - m - 1) stream
    if chunk = [] then some out
    else do
      let buf ← putAll buf m chunk
      let m := m + chunk.length
      let buf ← put buf m 0
      let (buf, p, out) ← lines pattern bufSize buf 0 out
      let stream := stream.drop chunk.length
      if 0 < m then
        let buf ← moveDown buf p (m - p)
        grepLoop pattern split rounds (k + 1) buf (m - p) stream out
      else grepLoop pattern split rounds (k + 1) buf m stream out

/-- `grep` on a stream; the pattern is `re` and its NUL, and `buf` is as the file before left it. -/
def grep (re : List Byte) (split : Nat → Nat) (buf : Nat → Byte) (stream : List Byte) :
    Option (List Byte) :=
  grepLoop (re ++ [0]) split (stream.length + 1) 0 buf 0 stream []

def emit (re line : List Byte) : List Byte :=
  if grepMatch (re ++ [0]) (line ++ [0]) = some true then line ++ [ch '\n'] else []

/-- The output for a stream behind the part `line` of a line.  Nothing is written any more when a
line has a NUL, or does not fit into the buffer. -/
def scan (re : List Byte) (line : List Byte) : List Byte → List Byte
  | [] => []
  | b :: rest =>
    if b = ch '\n' then emit re line ++ scan re [] rest
    else if b = 0 ∨ bufSize - 2 ≤ line.length then []
    else scan re (line ++ [b]) rest

variable {re line w rest : List Byte} {buf buf' : Nat → Byte} {p q m : Nat}

def Plain (w : List Byte) : Prop := 0 ∉ w ∧ ch '\n' ∉ w

def Stuck (w : List Byte) : Prop := Plain w ∨ ∃ line rest, w = line ++ 0 :: rest ∧ Plain line

theorem plain_nil : Plain [] := ⟨List.not_mem_nil, List.not_mem_nil⟩

theorem plain_cons {b : Byte} : Plain (b :: w) ↔ (b ≠ 0 ∧ b ≠ ch '\n') ∧ Plain w := by
  unfold Plain
  rw [List.mem_cons, List.mem_cons, not_or, not_or, ne_comm, @ne_comm _ b (ch '\n')]
  exact and_and_and_comm

theorem line_or_stuck (w : List Byte) :
    (∃ line rest, w = line ++ ch '\n' :: rest ∧ Plain line) ∨ Stuck w := by
  induction w with
  | nil => exact .inr (.inl plain_nil)
  | cons b w ih =>
    by_cases newline : b = ch '\n'
    · exact .inl ⟨[], w, by rw [newline]; rfl, plain_nil⟩
    · by_cases nul : b = 0
      · exact .inr (.inr ⟨[], w, by rw [nul]; rfl, plain_nil⟩)
      · have plain : b ≠ 0 ∧ b ≠ ch '\n' := ⟨nul, newline⟩
        rcases ih with ⟨line, rest, rfl, clean⟩ | clean | ⟨line, rest, rfl, clean⟩
        · exact .inl ⟨b :: line, rest, rfl, plain_cons.mpr ⟨plain, clean⟩⟩
        · exact .inr (.inl (plain_cons.mpr ⟨plain, clean⟩))
        · exact .inr (.inr ⟨b :: line, rest, rfl, plain_cons.mpr ⟨plain, clean⟩⟩)

theorem strchr_newline (plain : Plain line) (rest : List Byte) :
    strchr (ch '\n') (line ++ ch '\n' :: rest) = some (some line.length) := by
  induction line with
  | nil => exact (if_neg (by decide)).trans (if_pos rfl)
  | cons b line ih =>
    obtain ⟨⟨nonzero, other⟩, clean⟩ := plain_cons.mp plain
    rw [List.cons_append, strchr, if_neg nonzero, if_neg other, ih clean]
    rfl

theorem strchr_nul (plain : Plain line) (rest : List Byte) :
    strchr (ch '\n') (line ++ 0 :: rest) = some none := by
  induction line with
  | nil => exact if_pos rfl
  | cons b line ih =>
    obtain ⟨⟨nonzero, other⟩, clean⟩ := plain_cons.mp plain
    rw [List.cons_append, strchr, if_neg nonzero, if_neg other, ih clean]
    rfl

theorem strchr_stuck (stuck : Stuck w) (rest : List Byte) :
    strchr (ch '\n') (w ++ 0 :: rest) = some none := by
  rcases stuck with plain | ⟨line, more, rfl, plain⟩
  · exact strchr_nul plain rest
  · rw [List.append_assoc, List.cons_append]
    exact strchr_nul plain _

theorem scan_plain (plain : Plain w) (fits : line.length + w.length ≤ bufSize - 2) :
    scan re line (w ++ rest) = scan re (line ++ w) rest := by
  induction w generalizing line with
  | nil => rw [List.nil_append, List.append_nil]
  | cons b w ih =>
    obtain ⟨⟨nonzero, other⟩, clean⟩ := plain_cons.mp plain
    rw [List.length_cons] at fits
    have room : ¬ (b = 0 ∨ bufSize - 2 ≤ line.length) := by
      rintro (nul | full)
      · exact nonzero nul
      · omega
    rw [List.cons_append, scan, if_neg other, if_neg room,
      ih clean (by rw [List.length_append, List.length_singleton]; omega), List.append_assoc]
    rfl

theorem scan_long (plain : Plain w) (start : line.length ≤ bufSize - 2)
    (long : bufSize - 2 < line.length + w.length) : scan re line (w ++ rest) = [] := by
  induction w generalizing line with
  | nil =>
    rw [List.length_nil] at long
    omega
  | cons b w ih =>
    obtain ⟨⟨nonzero, other⟩, clean⟩ := plain_cons.mp plain
    rw [List.length_cons] at long
    rw [List.cons_append, scan, if_neg other]
    by_cases full : b = 0 ∨ bufSize - 2 ≤ line.length
    · exact if_pos full
    · rw [if_neg full]
      refine ih clean ?_ ?_
      · rw [List.length_append, List.length_singleton]
        omega
      · rw [List.length_append, List.length_singleton]
        omega

theorem scan_line (plain : Plain line) (fits : line.length ≤ bufSize - 2) (rest : List Byte) :
    scan re [] (line ++ ch '\n' :: rest) = emit re line ++ scan re [] rest := by
  rw [scan_plain plain (by rw [List.length_nil]; omega), List.nil_append, scan, if_pos rfl]

theorem scan_stuck (stuck : Stuck w) (last : bufSize - 1 ≤ w.length ∨ rest = []) :
    scan re [] (w ++ rest) = [] := by
  rcases stuck with plain | ⟨line, more, rfl, plain⟩
  · by_cases fits : w.length ≤ bufSize - 2
    · rcases last with full | rfl
      · unfold bufSize at *
        omega
      · rw [scan_plain plain (by rw [List.length_nil]; omega)]
        rfl
    · exact scan_long plain (Nat.zero_le _) (by rw [List.length_nil]; omega)
  · rw [List.append_assoc, List.cons_append]
    by_cases fits : line.length ≤ bufSize - 2
    · rw [scan_plain plain (by rw [List.length_nil]; omega), scan, if_neg (by decide)]
      exact if_pos (.inl rfl)
    · exact scan_long plain (Nat.zero_le _) (by rw [List.length_nil]; omega)

theorem length_bytes (buf : Nat → Byte) (p q : Nat) : (bytes buf p q).length = q - p := by
  unfold bytes
  rw [List.length_map, List.length_range']

theorem getElem_bytes {j : Nat} (inside : j < (bytes buf p q).length) :
    (bytes buf p q)[j] = buf (p + j) := by
  have place : (List.range' p (q - p)).get ⟨j, by rwa [bytes, List.length_map] at inside⟩ = p + j := by
    rw [List.get_eq_getElem, List.getElem_range', one_mul]
  exact (List.getElem_map buf).trans (congrArg buf place)

theorem bytes_append (buf : Nat → Byte) {r : Nat} (first : p ≤ q) (second : q ≤ r) :
    bytes buf p r = bytes buf p q ++ bytes buf q r := by
  unfold bytes
  have split : r - p = (q - p) + (r - q) := by omega
  have start : q = p + (q - p) := by omega
  rw [split, ← List.range'_append_1, List.map_append, ← start]

theorem bytes_cons (buf : Nat → Byte) (less : p < q) :
    bytes buf p q = buf p :: bytes buf (p + 1) q := by
  unfold bytes
  have count : q - p = (q - (p + 1)) + 1 := by omega
  rw [count, List.range'_succ, List.map_cons]

theorem bytes_empty (buf : Nat → Byte) (p : Nat) : bytes buf p p = [] := by
  unfold bytes
  rw [Nat.sub_self]
  rfl

theorem bytes_congr (same : ∀ j, p ≤ j → j < q → buf' j = buf j) :
    bytes buf' p q = bytes buf p q := by
  refine List.map_congr_left fun j mem => ?_
  obtain ⟨low, high⟩ := List.mem_range'_1.mp mem
  exact same j low (by omega)

theorem bytes_nul (buf : Nat → Byte) (order : p ≤ m) (inside : m < bufSize) (nul : buf m = 0) :
    bytes buf p bufSize = bytes buf p m ++ 0 :: bytes buf (m + 1) bufSize := by
  rw [bytes_append buf order inside.le, bytes_cons buf inside, nul]

theorem bytes_line (order : p ≤ m) (split : bytes buf p m = line ++ ch '\n' :: rest) :
    p + line.length < m ∧ bytes buf p (p + line.length) = line ∧ buf (p + line.length) = ch '\n' ∧
      bytes buf (p + line.length + 1) m = rest := by
  have total := length_bytes buf p m
  rw [split, List.length_append, List.length_cons] at total
  have less : p + line.length < m := by omega
  rw [bytes_append buf (Nat.le_add_right p line.length) less.le, bytes_cons buf less] at split
  obtain ⟨first, tail⟩ := List.append_inj split (by rw [length_bytes]; omega)
  obtain ⟨newline, remaining⟩ := List.cons.inj tail
  exact ⟨less, first, newline, remaining⟩

theorem grepMatch_junk (pattern : 0 ∉ re) (plain : Plain line) (junk : List Byte) :
    grepMatch (re ++ [0]) (line ++ 0 :: junk) = grepMatch (re ++ [0]) (line ++ [0]) ∧
      ∃ b, grepMatch (re ++ [0]) (line ++ [0]) = some b := by
  obtain ⟨b, answer, means⟩ := grepMatch_decides re [] pattern line junk plain.1
  obtain ⟨b', answer', means'⟩ := grepMatch_decides re [] pattern line [] plain.1
  have same : b = b' := Bool.eq_iff_iff.mpr (means.trans means'.symm)
  exact ⟨by rw [answer, answer', same], b', answer'⟩

/-- What the inner loop leaves behind: no whole line from `p'` on, and the output of the lines
before. -/
structure Scanned (re : List Byte) (buf : Nat → Byte) (p m : Nat) (buf' : Nat → Byte) (p' : Nat)
    (new : List Byte) : Prop where
  low : p ≤ p'
  high : p' ≤ m
  stuck : Stuck (bytes buf' p' m)
  output : ∀ rest, scan re [] (bytes buf p m ++ rest) = new ++ scan re [] (bytes buf' p' m ++ rest)

theorem Scanned.of_line {p' : Nat} {new : List Byte} {buf₁ : Nat → Byte} (order : p ≤ m)
    (inside : m < bufSize) (split : bytes buf p m = line ++ ch '\n' :: rest) (plain : Plain line)
    (kept : ∀ j, p + line.length < j → buf₁ j = buf j)
    (scanned : Scanned re buf₁ (p + line.length + 1) m buf' p' new) :
    Scanned re buf p m buf' p' (emit re line ++ new) := by
  obtain ⟨less, -, -, remaining⟩ := bytes_line order split
  have low := scanned.low
  refine ⟨by omega, scanned.high, scanned.stuck, fun more => ?_⟩
  have same : bytes buf₁ (p + line.length + 1) m = rest := by
    rw [← remaining]
    exact bytes_congr fun j first _ => kept j (by omega)
  have output := scanned.output more
  rw [same] at output
  have fits : line.length ≤ bufSize - 2 := by
    omega
  rw [split, List.append_assoc, List.cons_append, scan_line plain fits, output, List.append_assoc]

theorem bytes_terminated (order : p ≤ m) (inside : m < bufSize)
    (split : bytes buf p m = line ++ ch '\n' :: rest) :
    ∃ junk, bytes (update buf (p + line.length) 0) p bufSize = line ++ 0 :: junk := by
  obtain ⟨less, first, -, -⟩ := bytes_line order split
  have cut := bytes_nul (update buf (p + line.length) 0) (Nat.le_add_right p line.length)
    (less.trans inside) (update_self _ _ _)
  have kept : bytes (update buf (p + line.length) 0) p (p + line.length) = line :=
    (bytes_congr fun j _ high => update_of_ne (Nat.ne_of_lt high) 0 buf).trans first
  rw [kept] at cut
  exact ⟨_, cut⟩

theorem lines_line (pattern : 0 ∉ re) (order : p ≤ m) (inside : m < bufSize) (nul : buf m = 0)
    (split : bytes buf p m = line ++ ch '\n' :: rest) (plain : Plain line) (rounds : Nat)
    (out : List Byte) :
    ∃ buf₁, lines (re ++ [0]) (rounds + 1) buf p out =
        lines (re ++ [0]) rounds buf₁ (p + line.length + 1) (out ++ emit re line) ∧
      ∀ j, p + line.length < j → buf₁ j = buf j := by
  obtain ⟨less, first, -, -⟩ := bytes_line order split
  have room : p + line.length < bufSize := less.trans inside
  have found : strchr (ch '\n') (bytes buf p bufSize) = some (some line.length) := by
    rw [bytes_nul buf order inside nul, split, List.append_assoc, List.cons_append]
    exact strchr_newline plain _
  have stored (buf : Nat → Byte) (b : Byte) :
      put buf (p + line.length) b = some (update buf (p + line.length) b) := if_pos room
  obtain ⟨junk, text⟩ := bytes_terminated order inside split
  obtain ⟨same, b, answer⟩ := grepMatch_junk pattern plain junk
  rw [lines, found]
  simp only [Option.bind_eq_bind, Option.bind_some, stored, text, same, answer]
  cases b with
  | false =>
    have none : emit re line = [] := if_neg (by rw [answer]; decide)
    refine ⟨update buf (p + line.length) 0, by rw [none, List.append_nil]; rfl, fun j high => ?_⟩
    exact update_of_ne (Nat.ne_of_gt high) _ _
  | true =>
    have whole : emit re line = line ++ [ch '\n'] := if_pos answer
    have written : bytes (update buf (p + line.length) (ch '\n')) p (p + line.length + 1) =
        line ++ [ch '\n'] := by
      rw [bytes_append _ (Nat.le_add_right p line.length) (Nat.le_succ _),
        bytes_cons _ (Nat.lt_succ_self _), bytes_empty, update_self,
        bytes_congr fun j _ high => update_of_ne (Nat.ne_of_lt high) _ buf, first]
    have doubled : update (update buf (p + line.length) 0) (p + line.length) (ch '\n') =
        update buf (p + line.length) (ch '\n') := update_idem _ _ _
    refine ⟨update buf (p + line.length) (ch '\n'), ?_, fun j high => ?_⟩
    · rw [whole, ← written, ← doubled]
      rfl
    · exact update_of_ne (Nat.ne_of_gt high) _ _

theorem lines_scan (pattern : 0 ∉ re) {rounds : Nat} (enough : m < p + rounds) (order : p ≤ m)
    (inside : m < bufSize) (nul : buf m = 0) (out : List Byte) :
    ∃ buf' p' new, lines (re ++ [0]) rounds buf p out = some (buf', p', out ++ new) ∧
      Scanned re buf p m buf' p' new := by
  induction rounds generalizing buf p out with
  | zero => omega
  | succ rounds ih =>
    rcases line_or_stuck (bytes buf p m) with ⟨line, rest, split, plain⟩ | stuck
    · obtain ⟨less, -, -, -⟩ := bytes_line order split
      obtain ⟨buf₁, round, kept⟩ := lines_line pattern order inside nul split plain rounds out
      obtain ⟨buf', p', new, result, scanned⟩ := ih (by omega) less ((kept m less).trans nul)
        (out ++ emit re line)
      refine ⟨buf', p', emit re line ++ new, ?_, scanned.of_line order inside split plain kept⟩
      rw [round, result, List.append_assoc]
    · refine ⟨buf, p, [], ?_, Nat.le_refl p, order, stuck, fun _ => rfl⟩
      rw [lines, bytes_nul buf order inside nul, strchr_stuck stuck, List.append_nil]
      rfl

theorem bytes_putAll {chunk : List Byte} (fits : m + chunk.length ≤ bufSize) :
    ∃ buf', putAll buf m chunk = some buf' ∧
      bytes buf' 0 (m + chunk.length) = bytes buf 0 m ++ chunk := by
  refine ⟨_, if_pos fits, ?_⟩
  rw [bytes_append _ (Nat.zero_le m) (Nat.le_add_right m chunk.length)]
  congr 1
  · exact bytes_congr fun j _ high => if_neg (by omega)
  · refine List.ext_getElem ?_ fun j left right => ?_
    · rw [length_bytes]
      omega
    · rw [getElem_bytes, if_pos (by omega), Nat.add_sub_cancel_left, List.getD_eq_getElem?_getD,
        List.getElem?_eq_getElem right]
      rfl

theorem bytes_moveDown (order : p ≤ m) (inside : m < bufSize) :
    ∃ buf', moveDown buf p (m - p) = some buf' ∧ bytes buf' 0 (m - p) = bytes buf p m := by
  refine ⟨_, if_pos (by omega), ?_⟩
  refine List.ext_getElem ?_ fun j left right => ?_
  · rw [length_bytes, length_bytes, Nat.sub_zero]
  · have below : j < m - p := by
      rwa [length_bytes] at right
    rw [getElem_bytes, getElem_bytes, Nat.zero_add, if_pos below]

theorem readChunk_length (want len : Nat) (stream : List Byte) :
    (readChunk want len stream).length ≤ len :=
  (List.length_take_le _ _).trans (Nat.min_le_right _ _)

theorem readChunk_append_drop (want len : Nat) (stream : List Byte) :
    readChunk want len stream ++ stream.drop (readChunk want len stream).length = stream := by
  obtain ⟨rest, parts⟩ : readChunk want len stream <+: stream := List.take_prefix _ _
  have dropped : stream.drop (readChunk want len stream).length = rest :=
    (congrArg (List.drop _) parts.symm).trans List.drop_left
  rw [dropped, parts]

theorem readChunk_eq_nil {want len : Nat} {stream : List Byte}
    (ended : readChunk want len stream = []) : len = 0 ∨ stream = [] := by
  rcases List.take_eq_nil_iff.mp ended with nothing | finished
  · exact .inl (by omega)
  · exact .inr finished

theorem grepLoop_scan (pattern : 0 ∉ re) (split : Nat → Nat) {rounds : Nat} (k : Nat)
    {stream : List Byte} (enough : stream.length < rounds) (inside : m < bufSize)
    (stuck : Stuck (bytes buf 0 m)) (out : List Byte) :
    grepLoop (re ++ [0]) split rounds k buf m stream out =
      some (out ++ scan re [] (bytes buf 0 m ++ stream)) := by
  induction rounds generalizing k buf m stream out with
  | zero => omega
  | succ rounds ih =>
    unfold grepLoop
    have short := readChunk_length (split k) (bufSize - m - 1) stream
    have parts := readChunk_append_drop (split k) (bufSize - m - 1) stream
    have ends := @readChunk_eq_nil (split k) (bufSize - m - 1) stream
    generalize readChunk (split k) (bufSize - m - 1) stream = chunk at short parts ends
    by_cases ended : chunk = []
    · have last : bufSize - 1 ≤ (bytes buf 0 m).length ∨ stream = [] := by
        rw [length_bytes]
        exact (ends ended).imp_left fun full => by omega
      rw [if_pos ended, scan_stuck stuck last, List.append_nil]
    · have progress : 0 < chunk.length := List.length_pos_iff.mpr ended
      have fits : m + chunk.length < bufSize := by omega
      obtain ⟨buf₁, stored, all⟩ := @bytes_putAll buf m chunk fits.le
      have ending : put buf₁ (m + chunk.length) 0 = some (update buf₁ (m + chunk.length) 0) :=
        if_pos fits
      have text : bytes (update buf₁ (m + chunk.length) 0) 0 (m + chunk.length) =
          bytes buf 0 m ++ chunk :=
        (bytes_congr fun j _ high => update_of_ne (Nat.ne_of_lt high) 0 buf₁).trans all
      obtain ⟨buf₂, p, new, result, scanned⟩ := lines_scan pattern
        (fits.trans_eq (Nat.zero_add bufSize).symm) (Nat.zero_le _) fits (update_self _ 0 buf₁) out
      obtain ⟨buf₃, moved, carried⟩ := bytes_moveDown scanned.high fits
      have remaining : (stream.drop chunk.length).length < rounds := by
        rw [List.length_drop]
        have total := congrArg List.length parts
        rw [List.length_append, List.length_drop] at total
        omega
      have rest := ih (k + 1) remaining (by omega) (carried ▸ scanned.stuck) (out ++ new)
      have output := scanned.output (stream.drop chunk.length)
      rw [text, List.append_assoc, parts] at output
      rw [if_neg ended]
      simp only [Option.bind_eq_bind, Option.bind_some, stored, ending, result, moved,
        if_pos (Nat.add_pos_right m progress)]
      rw [rest, carried, output, List.append_assoc]

/-- The output of grep, which leaves the stores into `buf` inside of it, is a function of the
stream. -/
theorem grep_scan (pattern : 0 ∉ re) (split : Nat → Nat) (buf : Nat → Byte) (stream : List Byte) :
    grep re split buf stream = some (scan re [] stream) := by
  have empty : bytes buf 0 0 = [] := bytes_empty buf 0
  have stuck : Stuck (bytes buf 0 0) := by
    exact .inl plain_nil
  have result := grepLoop_scan pattern split 0 (Nat.lt_succ_self stream.length)
    (show 0 < bufSize by decide) stuck []
  exact result

/-- Whatever the sizes of the reads are, `grep` writes the same bytes, and stores nothing outside
of `buf`. -/
theorem grep_ignores_read_sizes (re : List Byte) (pattern : 0 ∉ re) (stream : List Byte)
    (split split' : Nat → Nat) (buf buf' : Nat → Byte) :
    ∃ out, grep re split buf stream = some out ∧ grep re split' buf' stream = some out :=
  ⟨scan re [] stream, grep_scan pattern split buf stream, grep_scan pattern split' buf' stream⟩

/-- Two bytes at a time, or all at once: the line with an `a` is written. -/
theorem grep_ignores_read_sizes_pairs :
    grep [ch 'a'] (fun _ => 2) (fun _ => 0) [ch 'b', ch 'a', ch '\n', ch 'b'] =
        some [ch 'b', ch 'a', ch '\n'] ∧
      grep [ch 'a'] (fun _ => 1023) (fun _ => 0) [ch 'b', ch 'a', ch '\n', ch 'b'] =
        some [ch 'b', ch 'a', ch '\n'] := by
  obtain ⟨out, pairs, whole⟩ := grep_ignores_read_sizes [ch 'a'] (by decide)
    [ch 'b', ch 'a', ch '\n', ch 'b'] (fun _ => 2) (fun _ => 1023) (fun _ => 0) (fun _ => 0)
  have known : grep [ch 'a'] (fun _ => 2) (fun _ => 0) [ch 'b', ch 'a', ch '\n', ch 'b'] =
      some [ch 'b', ch 'a', ch '\n'] := by
    decide +kernel
  cases known.symm.trans pairs
  exact ⟨known, whole⟩

end OsbKernel.Grep

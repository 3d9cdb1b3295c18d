import UringServer.Proofs.Attribution
import UringServer.Proofs.StoredLines

/-! # Reading the log back

A line puts its time, its id and its level in front of the text, and each of them ends at a character
that it does not contain. The texts of the server differ in their first letter, and the one about a
packet puts the bytes of the client last. So a whole line of the server tells its record, whatever the
clients sent, even where the text was cut to the scratch buffer. Where one line ends and the next begins
is another question: the bytes of a client are printed as they are, newlines included. Only as long as
there are none, the stream of lines tells all records.
-/

namespace UringServer

open Fallible Replay Separators

section Timestamps

variable {width m n : ℕ}

/-- Zeros in front do not change the number. -/
private theorem padded_inj (same : padded width m = padded width n) : m = n := by
  have value (k : ℕ) : Nat.ofDigitChars 10 (padded width k) 0 = k := by
    have zeros (count : ℕ) : Nat.ofDigitChars 10 (List.replicate count '0') 0 = 0 := by
      induction count with
      | zero => rfl
      | succ count ih => rwa [List.replicate_succ, Nat.ofDigitChars_cons]
    rw [padded, Nat.ofDigitChars_append, zeros, decimal, Nat.ofDigitChars_ten_toDigits]
  rw [← value m, ← value n, same]

private theorem not_mem_padded {c : Char} (punctuation : c.isDigit = false) : c ∉ padded width n := by
  intro member
  rcases List.mem_append.mp member with zero | digit
  · rw [List.eq_of_mem_replicate zero] at punctuation
    cases punctuation
  · exact not_mem_decimal punctuation digit

end Timestamps

namespace Timestamp

/-- `strftime` of a civil clock stores its text, and the milliseconds fit behind it. -/
theorem Civil.text {now : Timestamp} (civil : now.Civil) : formatTimestamp now =
    decimal now.year ++ '-' :: (padded 2 now.month ++ '-' :: (padded 2 now.day ++
      ' ' :: (padded 2 now.hour ++ ':' :: (padded 2 now.minute ++ ':' :: (padded 2 now.second ++
        '.' :: padded 3 now.millisecond))))) := by
  have whole := formatTimestamp_length civil
  have tail : ('.' :: padded 3 now.millisecond).length = 4 := by
    rw [List.length_cons, padded_length (by decide) civil.millisecond]
  rw [UringServer.formatTimestamp, snprintf, List.length_append, List.length_take, tail, loggingBufsize]
    at whole
  -- Without the date the text would be too short, and with it the milliseconds fit.
  have stored : (decimal now.year ++ '-' :: padded 2 now.month ++ '-' :: padded 2 now.day ++
      ' ' :: padded 2 now.hour ++ ':' :: padded 2 now.minute ++ ':' :: padded 2 now.second).length <
        256 := by
    by_contra long
    rw [strftime, if_neg long, List.length_nil] at whole
    omega
  rw [UringServer.formatTimestamp, snprintf_of_fits (by rw [tail, loggingBufsize]; omega), loggingBufsize,
    strftime, if_pos stored]
  simp only [List.append_assoc, List.cons_append]

private theorem Civil.text_inj {a b : Timestamp} (left : a.Civil) (right : b.Civil)
    (same : formatTimestamp a = formatTimestamp b) : a = b := by
  rw [left.text, right.text] at same
  obtain ⟨year, same⟩ := append_separator_inj (not_mem_decimal rfl) (not_mem_decimal rfl) same
  obtain ⟨month, same⟩ := append_separator_inj (not_mem_padded rfl) (not_mem_padded rfl) same
  obtain ⟨day, same⟩ := append_separator_inj (not_mem_padded rfl) (not_mem_padded rfl) same
  obtain ⟨hour, same⟩ := append_separator_inj (not_mem_padded rfl) (not_mem_padded rfl) same
  obtain ⟨minute, same⟩ := append_separator_inj (not_mem_padded rfl) (not_mem_padded rfl) same
  obtain ⟨second, millisecond⟩ := append_separator_inj (not_mem_padded rfl) (not_mem_padded rfl) same
  cases a
  cases b
  simp only [Timestamp.mk.injEq]
  exact ⟨decimal_inj year, padded_inj month, padded_inj day, padded_inj hour, padded_inj minute,
    padded_inj second, padded_inj millisecond⟩

/-- The time has no bracket, so the id behind it can be found. -/
private theorem Civil.not_mem_text {now : Timestamp} (civil : now.Civil) :
    '[' ∉ UringServer.formatTimestamp now := by
  rw [civil.text]
  have year : '[' ∉ decimal now.year := not_mem_decimal rfl
  have other (width n : ℕ) : '[' ∉ padded width n := not_mem_padded rfl
  simp [year, other]

end Timestamp

/-- Level, id, time and message can be read off a line. -/
private theorem logLine_inj {level level' : LogLevel} {bid bid' : ℕ} {now now' : Timestamp}
    {message message' : List Char} (civil : now.Civil) (civil' : now'.Civil)
    (same : logLine level bid (formatTimestamp now) message =
      logLine level' bid' (formatTimestamp now') message') :
    level = level' ∧ bid = bid' ∧ now = now' ∧ message = message' := by
  have before {clock : Timestamp} (regular : clock.Civil) : '[' ∉ formatTimestamp clock ++ [' '] := by
    simp [regular.not_mem_text]
  have shape (level : LogLevel) (bid : ℕ) (clock : Timestamp) (message : List Char) :
      logLine level bid (formatTimestamp clock) message = (formatTimestamp clock ++ [' ']) ++ '[' ::
        (decimal bid ++ ']' :: ((' ' :: logLevelColor level) ++ ('[' :: logLevelStr level ++ ']' ::
          (colorReset ++ (' ' :: (message ++ ['\n'])))))) := by
    have opening : " [".toList = [' ', '['] := rfl
    have closing : "] ".toList = [']', ' '] := rfl
    simp only [logLine, opening, closing, List.append_assoc, List.cons_append, List.nil_append]
  rw [shape, shape] at same
  obtain ⟨clock, same⟩ := append_separator_inj (before civil) (before civil') same
  obtain ⟨number, same⟩ := append_separator_inj (not_mem_decimal rfl) (not_mem_decimal rfl) same
  have color (level : LogLevel) : (' ' :: logLevelColor level).length = 6 := by cases level <;> rfl
  obtain ⟨-, same⟩ := List.append_inj same ((color level).trans (color level').symm)
  have name (level : LogLevel) : ']' ∉ '[' :: logLevelStr level := by cases level <;> decide
  obtain ⟨levels, same⟩ := append_separator_inj (name level) (name level') same
  have message := List.append_cancel_right (List.cons.inj (List.append_cancel_left same)).2
  have time := civil.text_inj civil' (List.append_cancel_right clock)
  refine ⟨?_, decimal_inj number, time, message⟩
  cases level <;> cases level' <;> first | rfl | exact absurd levels (by decide)

/-- The texts that `main` logs. -/
def mainTexts : List (List Char) :=
  ["Server starting 1...".toList, "Server starting 2...".toList, "Server starting 3...".toList,
    "Server starting 4...".toList]

/-- What a server with the rings of `main` logs. -/
inductive Known : LogArgs → Prop
  | text {fmt : List Char} (listed : fmt ∈ mainTexts) : Known (.text fmt)
  | connection {addr : List Char} (short : addr.length < fmtAddrlen) : Known (.newConnection addr)
  | packet {addr : List Char} {bid msglen : ℕ} (short : addr.length < fmtAddrlen) (plain : ',' ∉ addr)
      (bid_lt : bid < 16) (msglen_le : msglen ≤ 1024) :
      Known (.packetFrom addr bid msglen ((msglen : ℤ) - recvmsgOutSize)
        (((Block.bufring bufringsConn).carve 1024 bid).iovBase.add recvmsgOutSize))

/-- The first letter of a text. -/
def LogArgs.initial : LogArgs → Char
  | .text _ => 'S'
  | .newConnection _ => 'N'
  | .packetFrom _ _ _ _ _ => 'P'

theorem Known.initial {args : LogArgs} (known : Known args) (memory : Memory) :
    (args.expand memory).head? = some args.initial := by
  cases known with
  | text listed =>
    simp only [mainTexts, List.mem_cons, List.not_mem_nil, or_false] at listed
    rcases listed with rfl | rfl | rfl | rfl <;> rfl
  | connection short => rfl
  | packet short plain bid_lt msglen_le => rfl

private theorem text_expand (memory : Memory) (fmt : List Char) :
    (LogArgs.text fmt).expand memory = fmt := rfl

private theorem newConnection_expand (memory : Memory) (addr : List Char) :
    (LogArgs.newConnection addr).expand memory = "New connection from ".toList ++ addr := rfl

/-- The text about a packet, with the separators in sight. -/
private theorem packetFrom_expand (memory : Memory) (addr : List Char) (bid msglen : ℕ) (len : ℤ)
    (buf : Ptr) : (LogArgs.packetFrom addr bid msglen len buf).expand memory =
      ("Packet from ".toList ++ addr) ++ ',' :: ((" bid: ".toList ++ decimal bid) ++
        ',' :: ((" len: ".toList ++ decimal msglen) ++
          ',' :: (" content: ".toList ++ memory.cstring buf len.toNat))) := by
  have bidMark : ", bid: ".toList = ',' :: " bid: ".toList := rfl
  have lenMark : ", len: ".toList = ',' :: " len: ".toList := rfl
  have contentMark : ", content: ".toList = ',' :: " content: ".toList := rfl
  have number : decimalInt msglen = decimal msglen := rfl
  change "Packet from ".toList ++ addr ++ ", bid: ".toList ++ decimal bid ++ ", len: ".toList ++
    decimalInt msglen ++ ", content: ".toList ++ memory.cstring buf len.toNat = _
  rw [bidMark, lenMark, contentMark, number]
  simp only [List.append_assoc, List.cons_append]

/-- Sender, buffer and length can be read off the text about a packet, whatever its content. -/
private theorem packet_of_text {addr addr' : List Char} {bid bid' msglen msglen' : ℕ} {len len' : ℤ}
    {buf buf' : Ptr} {memory memory' : Memory} (short : addr.length < fmtAddrlen)
    (short' : addr'.length < fmtAddrlen) (plain : ',' ∉ addr) (plain' : ',' ∉ addr') (bid_lt : bid < 16)
    (bid_lt' : bid' < 16) (msglen_le : msglen ≤ 1024) (msglen_le' : msglen' ≤ 1024)
    (same : (snprintf loggingBufsize ((LogArgs.packetFrom addr bid msglen len buf).expand memory)).1 =
      (snprintf loggingBufsize ((LogArgs.packetFrom addr' bid' msglen' len' buf').expand memory')).1) :
    addr = addr' ∧ bid = bid' ∧ msglen = msglen' := by
  have sender {addr : List Char} (plain : ',' ∉ addr) : ',' ∉ "Packet from ".toList ++ addr :=
    List.not_mem_append (by decide) plain
  have bidField (n : ℕ) : ',' ∉ " bid: ".toList ++ decimal n :=
    List.not_mem_append (by decide) (not_mem_decimal rfl)
  have lenField (n : ℕ) : ',' ∉ " len: ".toList ++ decimal n :=
    List.not_mem_append (by decide) (not_mem_decimal rfl)
  have senderSize {addr : List Char} (short : addr.length < fmtAddrlen) :
      ("Packet from ".toList ++ addr).length < 44 := by
    rw [List.length_append]
    exact Nat.add_lt_add_left short 12
  have fieldSize (mark : List Char) (six : mark.length = 6) {n : ℕ} (bound : n < 10 ^ 5) :
      (mark ++ decimal n).length ≤ 11 := by
    rw [List.length_append, six]
    exact Nat.add_le_add_left (decimal_length_le (by decide) bound) 6
  have left := senderSize short
  have right := senderSize short'
  rw [packetFrom_expand, packetFrom_expand, snprintf, snprintf] at same
  obtain ⟨senders, same⟩ := take_separator_inj (sender plain) (sender plain')
    (left.trans (by decide)) (right.trans (by decide)) same
  have bidSize := fieldSize " bid: ".toList rfl (show bid < 10 ^ 5 by omega)
  have bidSize' := fieldSize " bid: ".toList rfl (show bid' < 10 ^ 5 by omega)
  have lenSize := fieldSize " len: ".toList rfl (show msglen < 10 ^ 5 by omega)
  have lenSize' := fieldSize " len: ".toList rfl (show msglen' < 10 ^ 5 by omega)
  -- At most 44 + 12 characters stand in front of the length, far below the cut.
  simp only [loggingBufsize] at same
  obtain ⟨bids, same⟩ := take_separator_inj (bidField bid) (bidField bid') (by omega) (by omega) same
  obtain ⟨lens, -⟩ := take_separator_inj (lenField msglen) (lenField msglen') (by omega) (by omega) same
  exact ⟨List.append_cancel_left senders, decimal_inj (List.append_cancel_left bids),
    decimal_inj (List.append_cancel_left lens)⟩

/-- What was logged can be read off its text, even where that was cut to the scratch buffer. -/
private theorem Known.of_text {args args' : LogArgs} (known : Known args) (known' : Known args')
    {memory memory' : Memory} (same : (snprintf loggingBufsize (args.expand memory)).1 =
      (snprintf loggingBufsize (args'.expand memory')).1) : args = args' := by
  have letters : args.initial = args'.initial := by
    have heads := congrArg List.head? same
    simp only [snprintf, List.head?_take, known.initial, known'.initial] at heads
    exact Option.some.inj heads
  cases known with
  | text listed =>
    cases known' with
    | text listed' =>
      have whole : ∀ fmt ∈ mainTexts, fmt.length < loggingBufsize := by decide
      rw [text_expand, text_expand, snprintf_of_fits (whole _ listed),
        snprintf_of_fits (whole _ listed')] at same
      exact congrArg LogArgs.text same
    | _ => cases letters
  | connection short =>
    cases known' with
    | connection short' =>
      have whole {addr : List Char} (short : addr.length < fmtAddrlen) :
          ("New connection from ".toList ++ addr).length < loggingBufsize := by
        have size : "New connection from ".toList.length = 20 := rfl
        rw [List.length_append, size, loggingBufsize]
        exact Nat.lt_of_lt_of_le (Nat.add_lt_add_left short 20) (by decide)
      rw [newConnection_expand, newConnection_expand, snprintf_of_fits (whole short),
        snprintf_of_fits (whole short')] at same
      exact congrArg LogArgs.newConnection (List.append_cancel_left same)
    | _ => cases letters
  | @packet addr bid msglen short plain bid_lt msglen_le =>
    cases known' with
    | @packet addr' bid' msglen' short' plain' bid_lt' msglen_le' =>
      obtain ⟨rfl, rfl, rfl⟩ := packet_of_text short short' plain plain' bid_lt bid_lt' msglen_le
        msglen_le' same
      rfl
    | _ => cases letters

/-- A record of what the server logs, printed with the time of its call. -/
structure Legible (r : LogRecord) : Prop where
  known : Known r.args
  printed : ∃ (now : Timestamp) (memory : Memory), now.Civil ∧ r.line =
    logLine r.level r.bid (formatTimestamp now) (snprintf loggingBufsize (r.args.expand memory)).1

/-- A line tells its record. -/
private theorem Legible.of_line {r r' : LogRecord} (legible : Legible r) (legible' : Legible r')
    (same : r.line = r'.line) : r = r' := by
  obtain ⟨known, now, memory, civil, line⟩ := legible
  obtain ⟨known', now', memory', civil', line'⟩ := legible'
  have texts := same
  rw [line, line'] at texts
  obtain ⟨levels, bids, -, messages⟩ := logLine_inj civil civil' texts
  have args := known.of_text known' messages
  cases r
  cases r'
  simp only [LogRecord.mk.injEq]
  exact ⟨levels, args, bids, same⟩

/-- The only newline of a line is its last character. -/
def LogRecord.Single (r : LogRecord) : Prop := '\n' ∉ r.line.dropLast

instance (r : LogRecord) : Decidable r.Single := inferInstanceAs (Decidable (_ ∉ _))

/-- A line ends with a newline. -/
private theorem Legible.newline {r : LogRecord} (legible : Legible r) :
    r.line = r.line.dropLast ++ ['\n'] := by
  obtain ⟨-, now, memory, -, line⟩ := legible
  rw [line, logLine, List.dropLast_concat]

/-- What the lines of two logs tell: a whole line its record, also as it is stored in a buffer and written
from there, and the stream of all lines the log, if newlines only end lines. -/
structure LinesTell (log log' : List LogRecord) : Prop where
  line : ∀ r ∈ log, ∀ r' ∈ log', r.line = r'.line → r = r'
  stored : ∀ r ∈ log, ∀ r' ∈ log', r.InBuffer → r'.InBuffer → r.stored = r'.stored → r = r'
  stream : (∀ r ∈ log ++ log', r.Single) →
    (log.map (·.line)).flatten = (log'.map (·.line)).flatten → log = log'

private theorem linesTell_of_legible {log log' : List LogRecord} (legible : ∀ r ∈ log, Legible r)
    (legible' : ∀ r ∈ log', Legible r) : LinesTell log log' where
  line r member r' member' same := (legible r member).of_line (legible' r' member') same
  stored r member r' member' inside inside' same :=
    (legible r member).of_line (legible' r' member') <|
      LogRecord.line_of_stored inside inside' (legible r member).newline (legible' r' member').newline same
  stream single same := by
    have terminated {part : List LogRecord} (sub : part ⊆ log ++ log') (legible : ∀ r ∈ part, Legible r) :
        ∀ line ∈ part.map (·.line), Terminated '\n' line := by
      intro line member
      obtain ⟨r, logged, rfl⟩ := List.mem_map.mp member
      exact ⟨_, single r (sub logged), (legible r logged).newline⟩
    have lines := flatten_terminated_inj (terminated (List.subset_append_left ..) legible)
      (terminated (List.subset_append_right ..) legible') same
    have lengths := congrArg List.length lines
    rw [List.length_map, List.length_map] at lengths
    refine List.ext_getElem lengths fun i bound bound' => ?_
    refine (legible _ (List.getElem_mem bound)).of_line (legible' _ (List.getElem_mem bound')) ?_
    have here := List.getElem_of_eq lines (by rwa [List.length_map])
    rwa [List.getElem_map, List.getElem_map] at here

/-- The text of an address has at most 21 characters, and no comma. -/
private theorem addrText_plain (addr : SockaddrIn) :
    (addrText addr).length < fmtAddrlen ∧ ',' ∉ addrText addr := by
  obtain ⟨ip, port⟩ := addrText_bounds addr
  have comma (n : ℕ) : ',' ∉ decimal n := not_mem_decimal rfl
  refine ⟨?_, by simp [addrText, dottedDecimal, comma]⟩
  simp only [addrText, List.length_append, List.length_cons, fmtAddrlen]
  omega

/-- The line of a record shows an address, behind the word `from`. -/
def LogRecord.Shows (r : LogRecord) (addr : List Char) : Prop := "from ".toList ++ addr <:+: r.line

/-- The address stands so far in front of its text that the cuts do not reach it. -/
private theorem logLine_shows {args : LogArgs} {addr : List Char} (names : args.addr? = some addr)
    (short : addr.length < fmtAddrlen) (level : LogLevel) (bid : ℕ) (now : Timestamp) (memory : Memory) :
    "from ".toList ++ addr <:+:
      logLine level bid (formatTimestamp now) (snprintf loggingBufsize (args.expand memory)).1 := by
  have brief : addr.length < 32 := short
  obtain ⟨front, rest, text, most⟩ : ∃ front rest,
      args.expand memory = (front ++ ("from ".toList ++ addr)) ++ rest ∧ front.length ≤ 15 := by
    cases args with
    | text fmt => cases names
    | newConnection addr' =>
      cases names
      exact ⟨"New connection ".toList, [], by rw [List.append_nil]; rfl, le_rfl⟩
    | packetFrom addr' n msglen len buf =>
      cases names
      refine ⟨"Packet ".toList, ", bid: ".toList ++ decimal n ++ ", len: ".toList ++
        decimalInt msglen ++ ", content: ".toList ++ memory.cstring buf len.toNat, ?_, by decide⟩
      change "Packet from ".toList ++ addr ++ _ ++ _ ++ _ ++ _ ++ _ ++ _ = _
      simp only [List.append_assoc]
      rfl
  have uncut : (snprintf loggingBufsize (args.expand memory)).1 = (front ++ ("from ".toList ++ addr)) ++
      rest.take (loggingBufsize - 1 - (front ++ ("from ".toList ++ addr)).length) := by
    have size : (front ++ ("from ".toList ++ addr)).length ≤ loggingBufsize - 1 := by
      have five : "from ".toList.length = 5 := rfl
      rw [List.length_append, List.length_append, five, loggingBufsize]
      omega
    rw [snprintf, text, List.take_append, List.take_of_length_le size]
  have inText : "from ".toList ++ addr <:+: (snprintf loggingBufsize (args.expand memory)).1 :=
    ⟨front, _, uncut.symm⟩
  refine inText.trans ?_
  rw [logLine]
  exact ⟨_, ['\n'], congrArg (· ++ ['\n']) (List.append_cons ..).symm⟩

/-- Every line about an address shows it. -/
structure AddrShown (s : State) : Prop where
  records : ∀ r ∈ s.app.log, ∀ addr, r.args.addr? = some addr → r.Shows addr
  fmtAddr : s.app.fmtAddr.length < fmtAddrlen

private theorem logEvent_shows {level : LogLevel} {self next : Appctx} {args : LogArgs} {answers : Answers}
    (log : logEvent level self args answers = .ok next)
    (old : ∀ r ∈ self.log, ∀ addr, r.args.addr? = some addr → r.Shows addr)
    (short : ∀ addr, args.addr? = some addr → addr.length < fmtAddrlen) :
    ∀ r ∈ next.log, ∀ addr, r.args.addr? = some addr → r.Shows addr := by
  obtain ⟨node, slot, -, -, rfl⟩ := logEvent_ok_iff.mp log
  intro r member addr names
  rcases List.mem_append.mp member with before | new
  · exact old r before addr names
  · obtain rfl := List.mem_singleton.mp new
    exact logLine_shows names (short addr names) level _ answers.now self.memory

private theorem Step.addrShown {cfg : Config} {s next : State} {event : Event} (step : Step cfg s event next)
    (shown : AddrShown s) : AddrShown next := by
  obtain ⟨old, short⟩ := shown
  cases step with
  | stops _ stop => exact ⟨old, short⟩
  | mainAccept ring => exact ⟨old, short⟩
  | mainLog log =>
    have records := logEvent_shows log old (by simp [LogArgs.addr?])
    exact ⟨records, (logEvent_fmtAddr log).symm ▸ short⟩
  | mainSubmit => exact ⟨old, short⟩
  | poll => exact ⟨old, short⟩
  | complete found posted => exact ⟨posted.log ▸ old, posted.fmtAddr ▸ short⟩
  | @iterate index answers c branch found handled =>
    cases handled with
    | write request => exact ⟨old, short⟩
    | accept request positive ring log =>
      have address := (addrText_plain (answers.getpeername c.cqe.res).2).1
      have records := logEvent_shows log old (by rintro addr ⟨⟩; exact address)
      have same := logEvent_fmtAddr log
      exact ⟨records, same ▸ address⟩
    | recvmsg request filled log ring =>
      have records := logEvent_shows log old (by rintro addr ⟨⟩; exact short)
      have same := logEvent_fmtAddr log
      exact ⟨records, same ▸ short⟩
    | send request => exact ⟨old, short⟩

theorem Reachable.addrShown {cfg : Config} {s : State} (reachable : Reachable cfg s) : AddrShown s := by
  refine reachable.invariant ?_ fun _ _ _ _ shown step => step.addrShown shown
  intro first initial
  refine ⟨?_, ?_⟩
  · simp [initial.log]
  · rw [initial.fmtAddr]
    decide

/-- If the log names the right peers, then the lines about connections and packets show, one for one, the
addresses of the peers of the completions handled. -/
theorem Attributed.shows {cfg : Config} {s : State} {peer : ℤ → SockaddrIn} (reachable : Reachable cfg s)
    (attributed : Attributed peer s) :
    List.Forall₂ (fun r fd => r.Shows (addrText (peer fd)))
      (s.app.log.filter (·.args.addr?.isSome)) (s.handled.filterMap Completion.aboutFd?) := by
  have shown := reachable.addrShown.records
  have same : s.app.log.filterMap (·.args.addr?) =
      (s.handled.filterMap Completion.aboutFd?).map fun fd => addrText (peer fd) := by
    rw [Attributed, List.filterMap_map] at attributed
    rw [List.map_filterMap]
    exact attributed
  generalize s.handled.filterMap Completion.aboutFd? = fds at same ⊢
  generalize s.app.log = log at shown same ⊢
  induction log generalizing fds with
  | nil =>
    cases List.map_eq_nil_iff.mp same.symm
    exact .nil
  | cons r log ih =>
    have rest (other : LogRecord) (member : other ∈ log) := shown other (List.mem_cons_of_mem _ member)
    cases names : r.args.addr? with
    | none =>
      simp only [List.filterMap_cons, names] at same
      rw [List.filter_cons_of_neg (by simp [names])]
      exact ih fds rest same
    | some addr =>
      simp only [List.filterMap_cons, names] at same
      obtain ⟨fd, fds, rfl, rfl, later⟩ := List.map_eq_cons_iff.mp same.symm
      rw [List.filter_cons_of_pos (by simp [names])]
      exact .cons (shown r (List.mem_cons_self ..) _ names) (ih fds rest later.symm)

/-- The clock is civil whenever the event logs. -/
def Event.Civil : Event → Prop
  | .mainLog _ _ answers => answers.now.Civil
  | .iterate _ answers => answers.now.Civil
  | _ => True

/-- What `main` logs are its own texts. -/
def Event.Scripted : Event → Prop
  | .mainLog _ fmt _ => fmt ∈ mainTexts
  | _ => True

/-- Every record can be read back, and the next address will not be in the way. -/
structure LogLegible (s : State) : Prop where
  records : ∀ r ∈ s.app.log, Legible r
  fmtAddr : s.app.fmtAddr.length < fmtAddrlen ∧ ',' ∉ s.app.fmtAddr

private theorem logEvent_legible {level : LogLevel} {self next : Appctx} {args : LogArgs} {answers : Answers}
    (log : logEvent level self args answers = .ok next) (old : ∀ r ∈ self.log, Legible r)
    (civil : answers.now.Civil) (known : Known args) : ∀ r ∈ next.log, Legible r := by
  obtain ⟨node, slot, -, -, rfl⟩ := logEvent_ok_iff.mp log
  intro r member
  rcases List.mem_append.mp member with before | new
  · exact old r before
  · obtain rfl := List.mem_singleton.mp new
    exact ⟨known, answers.now, self.memory, civil, rfl⟩

section Run

variable {setup : Setup} {s next : State}

/-- What is logged about a packet of a ring of `main`. -/
theorem Reachable.packet_known (reachable : Reachable (mainConfig setup) s) {c : Completion}
    (waiting : c ∈ s.app.uring.cq) {buf : IoUringBuf} (filled : c.buf = some buf)
    (plain : s.app.fmtAddr.length < fmtAddrlen ∧ ',' ∉ s.app.fmtAddr) :
    Known (s.app.packetArgs c.cqe) := by
  have ring := reachable.ringInvariant
  have genuine := (reachable.requested.posted c (List.mem_append_left _ waiting)).2
  have described := ring.described buf (List.mem_filterMap.mpr ⟨c, waiting, filled⟩)
  have entries : s.conn.params.entries = 16 := by rw [ring.registered]; rfl
  have carved := ring.carved buf.bid described.bid_lt
  have size : s.conn.params.entrySize = 1024 := by rw [ring.registered]; rfl
  rw [size] at carved
  obtain ⟨-, header, fits⟩ := genuine.filled buf filled
  rw [described.len, carved] at fits
  obtain ⟨msglen, length⟩ := Int.eq_ofNat_of_zero_le (recvmsgOutSize_nonneg.trans header)
  have most : msglen ≤ 1024 := by
    dsimp only at fits
    omega
  have place : ((s.app.bufrings bufringsConn).bufs buf.bid).iovBase =
      ((Block.bufring bufringsConn).carve 1024 buf.bid).iovBase := congrArg Iovec.iovBase carved
  have bound : buf.bid < 16 := entries ▸ described.bid_lt
  rw [Appctx.packetArgs, genuine.bid filled, length, place]
  exact .packet plain.1 plain.2 bound most

private theorem Step.logLegible {event : Event} (reachable : Reachable (mainConfig setup) s)
    (step : Step (mainConfig setup) s event next) (legible : LogLegible s) (civil : event.Civil)
    (scripted : event.Scripted) : LogLegible next := by
  obtain ⟨old, plain⟩ := legible
  cases step with
  | stops _ stop => exact ⟨old, plain⟩
  | mainAccept ring => exact ⟨old, plain⟩
  | mainLog log =>
    refine ⟨logEvent_legible log old civil (.text scripted), ?_⟩
    exact (logEvent_fmtAddr log).symm ▸ plain
  | mainSubmit => exact ⟨old, plain⟩
  | poll => exact ⟨old, plain⟩
  | complete found posted => exact ⟨posted.log ▸ old, posted.fmtAddr ▸ plain⟩
  | @iterate index answers c branch found handled =>
    cases handled with
    | write request => exact ⟨old, plain⟩
    | accept request positive ring log =>
      have address := addrText_plain (answers.getpeername c.cqe.res).2
      have records := logEvent_legible log old civil (.connection address.1)
      have same := logEvent_fmtAddr log
      exact ⟨records, same ▸ address⟩
    | recvmsg request filled log ring =>
      have known := reachable.packet_known (List.mem_of_getElem? found) filled plain
      have records := logEvent_legible log old civil known
      have same := logEvent_fmtAddr log
      exact ⟨records, same ▸ plain⟩
    | send request => exact ⟨old, plain⟩

private theorem Event.inLoop.scripted {event : Event} (loops : event.inLoop) : event.Scripted := by
  cases event with
  | mainLog => cases loops
  | _ => trivial

theorem ServerRun.logLegible {answers : Fin 6 → Answers} {events : List Event}
    (run : ServerRun (mainConfig setup) answers events s)
    (clock : ∀ event ∈ mainEvents answers ++ events, event.Civil) : LogLegible s := by
  obtain ⟨inLoop, first, start, reached⟩ := run
  have initial := initial_spec start
  have scripted (event : Event) (member : event ∈ mainEvents answers ++ events) : event.Scripted := by
    rcases List.mem_append.mp member with before | after
    · simp only [mainEvents, List.mem_cons, List.not_mem_nil, or_false] at before
      rcases before with rfl | rfl | rfl | rfl | rfl | rfl <;> simp [Event.Scripted, mainTexts]
    · exact Event.inLoop.scripted (inLoop event after)
  have begun : LogLegible first := by
    refine ⟨?_, ?_⟩
    · simp [initial.log]
    · rw [initial.fmtAddr]
      decide
  have tape (event : Event) (member : event ∈ mainEvents answers ++ events) :
      event.Civil ∧ event.Scripted := ⟨clock event member, scripted event member⟩
  exact (Reachable.initial start).preserves reached tape begun fun s event next here permitted legible step =>
    step.logLegible here legible permitted.1 permitted.2

end Run

/-- Two lines that servers logged are equal only if they report the same: the same text of `main`, or
the same connection, or the same sender, buffer and length of a packet, with the same level and id. The
same holds of what is stored of them for their writes, and if newlines only end lines the whole stream of
lines tells the whole log. -/
theorem log_lines_tell_records {setup setup' : Setup} {answers answers' : Fin 6 → Answers}
    {events events' : List Event} {s s' : State} (run : ServerRun (mainConfig setup) answers events s)
    (run' : ServerRun (mainConfig setup') answers' events' s')
    (clock : ∀ event ∈ mainEvents answers ++ events, event.Civil)
    (clock' : ∀ event ∈ mainEvents answers' ++ events', event.Civil) : LinesTell s.app.log s'.app.log :=
  linesTell_of_legible (run.logLegible clock).records (run'.logLegible clock').records

/-- A client sends a newline and then, to the letter, a line that was logged before: the line about its
packet is another one, but it ends with that line, and a reader of the stream takes it for two. -/
theorem log_lines_tell_records_forged : ∃ events s, ServerRun calmConfig (fun _ => calm) events s ∧
    (∃ r ∈ s.app.log, ∃ r' ∈ s.app.log, r.line ≠ r'.line ∧ r.InBuffer ∧ r'.InBuffer ∧
      '\n' :: r.line <:+ r'.line ∧ ¬ r'.Single) ∧ LinesTell s.app.log s.app.log := by
  let forged := "\n2025-01-02 03:04:05.006 [11] \x1b[34m[DEBUG]\x1b[0m New connection from 10.0.0.5:8080".toList
  let events : List Event := [.poll 5, .complete 0 (.accepted 5 true), .iterate 0 calm, .poll 2,
    .complete 5 (.received forged true), .iterate 0 calm]
  have passed : (replay? calmConfig (mainEvents (fun _ => calm) ++ events)).any (fun s =>
      ∃ r ∈ s.app.log, ∃ r' ∈ s.app.log, r.line ≠ r'.line ∧ r.InBuffer ∧ r'.InBuffer ∧
        '\n' :: r.line <:+ r'.line ∧ ¬ r'.Single) = true := by decide +kernel
  obtain ⟨s, run, holds⟩ := exists_serverRun rfl passed
  have civil : calm.now.Civil := ⟨by decide, by decide, by decide, by decide, by decide, by decide, by decide⟩
  have clock : ∀ event ∈ mainEvents (fun _ => calm) ++ events, event.Civil := by
    simp [mainEvents, events, Event.Civil, civil]
  exact ⟨events, s, run, of_decide_eq_true holds, log_lines_tell_records run run clock clock⟩

end UringServer

import UringServer.Model.Assert
import UringServer.Model.Memory

/-! # Formatting of log lines

C strings are lists of characters without their terminator. `snprintf` stores what fits below the
size it is given and returns the length of the whole text. The decimal digits of `%d` are those
of `Nat.toDigits 10`.
-/

namespace UringServer

open Fallible

/-- `LOGGING_BUFSIZE`. -/
def loggingBufsize : ℕ := 256

/-- `FMT_ADDRLEN`. -/
def fmtAddrlen : ℕ := 32

/-- `%d` of a non-negative value. -/
def decimal (n : ℕ) : List Char := Nat.toDigits 10 n

/-- `%d`. -/
def decimalInt : ℤ → List Char
  | .ofNat n => decimal n
  | .negSucc n => '-' :: decimal (n + 1)

/-- Decimal digits, zero padded to at least `width`. -/
def padded (width n : ℕ) : List Char :=
  List.replicate (width - (decimal n).length) '0' ++ decimal n

/-- `snprintf` of a fully expanded text: what is stored before the terminator, what is returned. -/
def snprintf (size : ℕ) (text : List Char) : List Char × ℕ := (text.take (size - 1), text.length)

/-- `enum log_level`. -/
inductive LogLevel where
  | debug
  | info
  | warn
  | error
deriving DecidableEq, Repr

/-- `log_level_str`. -/
def logLevelStr : LogLevel → List Char
  | .debug => "DEBUG".toList
  | .info => "INFO".toList
  | .warn => "WARN".toList
  | .error => "ERROR".toList

/-- `COLOR_RESET`. -/
def colorReset : List Char := "\x1b[0m".toList

/-- `log_level_color`. -/
def logLevelColor : LogLevel → List Char
  | .debug => "\x1b[34m".toList
  | .info => "\x1b[92m".toList
  | .warn => "\x1b[33m".toList
  | .error => "\x1b[31m".toList

/-- The local time that `gettimeofday` and `localtime` deliver, as far as it is printed. -/
structure Timestamp where
  year : ℕ
  month : ℕ
  day : ℕ
  hour : ℕ
  minute : ℕ
  second : ℕ
  millisecond : ℕ
deriving DecidableEq, Repr

/-- `strftime` with `"%Y-%m-%d %H:%M:%S"`: nothing is stored when the text does not fit. -/
def strftime (size : ℕ) (now : Timestamp) : List Char :=
  let text := decimal now.year ++ '-' :: padded 2 now.month ++ '-' :: padded 2 now.day ++
    ' ' :: padded 2 now.hour ++ ':' :: padded 2 now.minute ++ ':' :: padded 2 now.second
  if text.length < size then text else []

/-- `scratch1` of `log_event`: the date, followed by `".%03ld"` of the milliseconds. -/
def formatTimestamp (now : Timestamp) : List Char :=
  let date := strftime loggingBufsize now
  date ++ (snprintf (loggingBufsize - date.length) ('.' :: padded 3 now.millisecond)).1

/-- `struct sockaddr_in` as `getpeername` fills it: the bytes of address and port in memory. -/
structure SockaddrIn where
  sinAddr : Fin 256 × Fin 256 × Fin 256 × Fin 256
  sinPort : Fin 256 × Fin 256
deriving DecidableEq, Repr

/-- `ntohs` of the port: the first byte in memory is the high one. -/
def SockaddrIn.port (addr : SockaddrIn) : ℕ := 256 * addr.sinPort.1 + addr.sinPort.2

/-- The four bytes of an address in dotted decimal. -/
def dottedDecimal (addr : SockaddrIn) : List Char :=
  decimal addr.sinAddr.1 ++ '.' :: decimal addr.sinAddr.2.1 ++
    '.' :: decimal addr.sinAddr.2.2.1 ++ '.' :: decimal addr.sinAddr.2.2.2

/-- `inet_ntop` for `AF_INET` into zeroed bytes: nothing is stored when the text does not fit. -/
def inetNtop (addr : SockaddrIn) (size : ℕ) : List Char :=
  let text := dottedDecimal addr
  if text.length < size then text else []

/-- `format_inet_addr_from_sockfd`: the text left in a buffer of `bufSz` bytes. `getpeername` gives
the result of that call for a descriptor and what the call leaves in the address. -/
def formatInetAddrFromSockfd (getpeername : ℤ → ℤ × SockaddrIn) (sockfd : ℤ) (bufSz : ℕ) :
    Except Stop (List Char) := do
  let (err, sender) := getpeername sockfd
  assertPositive (-err)
  let ip := inetNtop sender bufSz
  return ip ++ (snprintf (bufSz - ip.length) (':' :: decimal sender.port)).1

/-- A format of the program together with its arguments. A plain text takes none. -/
inductive LogArgs where
  | text (fmt : List Char)
  | newConnection (addr : List Char)
  | packetFrom (addr : List Char) (bid : ℕ) (msglen len : ℤ) (buf : Ptr)
deriving DecidableEq, Repr

/-- The expansion of a format; the payload is read from memory when it is printed. -/
def LogArgs.expand (memory : Memory) : LogArgs → List Char
  | .text fmt => fmt
  | .newConnection addr => "New connection from ".toList ++ addr
  | .packetFrom addr bid msglen len buf =>
      "Packet from ".toList ++ addr ++ ", bid: ".toList ++ decimal bid ++ ", len: ".toList ++
        decimalInt msglen ++ ", content: ".toList ++ memory.cstring buf len.toNat

/-- The text of the last `snprintf` of `log_event`:
`"%s [%d] %s[%s]%s %s\n"` of the two scratch buffers. -/
def logLine (level : LogLevel) (bid : ℕ) (scratch1 scratch2 : List Char) : List Char :=
  scratch1 ++ " [".toList ++ decimal bid ++ "] ".toList ++ logLevelColor level ++ '[' ::
    logLevelStr level ++ ']' :: colorReset ++ ' ' :: scratch2 ++ ['\n']

theorem logLine_ne_nil (level : LogLevel) (bid : ℕ) (scratch1 scratch2 : List Char) :
    logLine level bid scratch1 scratch2 ≠ [] := by
  simp [logLine]

/-- A text that fits is stored whole, and its length is returned. -/
theorem snprintf_of_fits {size : ℕ} {text : List Char} (fits : text.length < size) :
    (snprintf size text).1 = text := List.take_of_length_le (by omega)

end UringServer

import MyLearning.Lib.Lts
import MyLearning.Lib.Printf
import MyLearning.MyMuduo.LogStreamContent

/-!
# The logger

A log statement makes a `Logger`, whose stream begins with the time, the thread and the level, puts its items
into the stream, and writes the stream out at its end; what an item calls may log in between. Each thread keeps the
last second it has formatted with its text, and its id as text. Both are empty at first, and the second is 0.

The calendar and the names of the errors are those of the outside. The zone is what it is at the start: nothing
that a user can call sets it.
-/

namespace MyLearning.Logging

open LogStream Printf

def kMicroSecondsPerSecond : Int := 1000000

inductive LogLevel where
  | TRACE
  | DEBUG
  | INFO
  | WARN
  | ERROR
  | FATAL
  deriving DecidableEq, Repr

def LogLevel.toNat : LogLevel → Nat
  | TRACE => 0
  | DEBUG => 1
  | INFO => 2
  | WARN => 3
  | ERROR => 4
  | FATAL => 5

def LogLevelName : LogLevel → List Char
  | .TRACE => "TRACE ".toList
  | .DEBUG => "DEBUG ".toList
  | .INFO => "INFO  ".toList
  | .WARN => "WARN  ".toList
  | .ERROR => "ERROR ".toList
  | .FATAL => "FATAL ".toList

structure DateTime where
  year : Int
  month : Int
  day : Int
  hour : Int
  minute : Int
  second : Int
  deriving DecidableEq

/-- `g_logTimeZone` is `none` where it is not valid, and otherwise its `toLocalTime`. -/
structure Env where
  g_logTimeZone : Option (Int → DateTime)
  toUtcTime : Int → DateTime
  strerror_tl : Int32 → CString
  gettid : Nat → Int32

structure ThreadLocal where
  t_lastSecond : Int
  t_time : List Char
  t_cachedTid : Int32
  t_tidString : List Char
  t_tidStringLength : Int
  deriving DecidableEq

def ThreadLocal.initial : ThreadLocal where
  t_lastSecond := 0
  t_time := []
  t_cachedTid := 0
  t_tidString := []
  t_tidStringLength := 6

structure Logger where
  stream : FixedBuffer
  level : LogLevel
  line : Int32
  basename : List UInt8

inductive Macro where
  | LOG_TRACE
  | LOG_DEBUG
  | LOG_INFO
  | LOG_WARN
  | LOG_ERROR
  | LOG_FATAL
  | LOG_SYSERR
  | LOG_SYSFATAL
  deriving DecidableEq, Repr

/-- A log statement, with `__FILE__`, `__LINE__` and `__func__`. -/
structure Site where
  name : Macro
  file : List UInt8
  line : Int32
  func : CString

/-! ## The functions of the source -/

def initLogLevel (traceSet debugSet : Bool) : LogLevel := if traceSet then .TRACE else if debugSet then .DEBUG else .INFO

def bytes (cs : List Char) : List UInt8 := cs.map fun c => UInt8.ofNat c.toNat

def putT (b : FixedBuffer) (str : List Char) (len : Int) : Except Fault FixedBuffer := do
  check (str.length = len)
  b.append (bytes str)

/-- `SourceFile`: from behind the last slash. -/
def sourceFile (file : List UInt8) : List UInt8 := (file.reverse.takeWhile fun c => c ≠ 47).reverse

def cacheTid (env : Env) (i : Nat) (l : ThreadLocal) : ThreadLocal :=
  if l.t_cachedTid = 0 then
    let text := blankPadded 5 (env.gettid i).toInt ++ [' ']
    { l with t_cachedTid := env.gettid i, t_tidString := snprintf 32 text, t_tidStringLength := text.length }
  else l

def currentTid (env : Env) (i : Nat) (l : ThreadLocal) : ThreadLocal := if l.t_cachedTid = 0 then cacheTid env i l else l

def dateTime (env : Env) (seconds : Int) : DateTime :=
  match env.g_logTimeZone with
  | some toLocalTime => toLocalTime seconds
  | none => env.toUtcTime seconds

/-- `%4d%02d%02d %02d:%02d:%02d` -/
def dateText (dt : DateTime) : List Char :=
  blankPadded 4 dt.year ++ (zeroPadded 2 dt.month ++ (zeroPadded 2 dt.day ++ ' ' :: (zeroPadded 2 dt.hour ++
    ':' :: (zeroPadded 2 dt.minute ++ ':' :: zeroPadded 2 dt.second))))

def refreshTime (env : Env) (l : ThreadLocal) (seconds : Int) : Except Fault ThreadLocal := do
  if seconds ≠ l.t_lastSecond then
    let text := dateText (dateTime env seconds)
    check (text.length = 17)
    return { l with t_lastSecond := seconds, t_time := snprintf 64 text }
  else return l

def putTime (env : Env) (l : ThreadLocal) (b : FixedBuffer) (microseconds : Int) : Except Fault FixedBuffer := do
  if env.g_logTimeZone.isSome then
    let us := '.' :: (zeroPadded 6 microseconds ++ [' '])
    check (us.length = 8)
    let b ← putT b l.t_time 17
    putT b us 8
  else
    let us := '.' :: (zeroPadded 6 microseconds ++ ['Z', ' '])
    check (us.length = 9)
    let b ← putT b l.t_time 17
    putT b us 9

def formatTime (env : Env) (l : ThreadLocal) (b : FixedBuffer) (time_ : Int) : Except Fault (ThreadLocal × FixedBuffer) := do
  let l ← refreshTime env l (time_.tdiv kMicroSecondsPerSecond)
  let b ← putTime env l b (time_.tmod kMicroSecondsPerSecond)
  return (l, b)

def errnoOpen : CString := ⟨ascii " (errno=", by decide⟩

def errnoClose : CString := ⟨ascii ") ", by decide⟩

def dash : CString := ⟨ascii " - ", by decide⟩

def putErrno (env : Env) (b : FixedBuffer) (savedErrno : Int32) : Except Fault FixedBuffer :=
  if savedErrno ≠ 0 then
    putAll b [.cString (env.strerror_tl savedErrno), .cString errnoOpen, .int savedErrno, .cString errnoClose]
  else return b

def newImpl (env : Env) (i : Nat) (l : ThreadLocal) (time_ : Int) (level : LogLevel) (savedErrno : Int32)
    (file : List UInt8) (line : Int32) (data : Vector UInt8 kSmallBuffer) : Except Fault (ThreadLocal × Logger) := do
  let (l, b) ← formatTime env l (fresh data) time_
  let l := currentTid env i l
  let b ← putT b l.t_tidString l.t_tidStringLength
  let b ← putT b (LogLevelName level) 6
  let b ← putErrno env b savedErrno
  return (l, ⟨b, level, line, sourceFile file⟩)

def Macro.level : Macro → LogLevel
  | LOG_TRACE => .TRACE
  | LOG_DEBUG => .DEBUG
  | LOG_INFO => .INFO
  | LOG_WARN => .WARN
  | LOG_ERROR | LOG_SYSERR => .ERROR
  | LOG_FATAL | LOG_SYSFATAL => .FATAL

def Macro.enabled (name : Macro) (g_logLevel : LogLevel) : Bool :=
  match name with
  | LOG_TRACE | LOG_DEBUG | LOG_INFO => decide (g_logLevel.toNat ≤ name.level.toNat)
  | LOG_WARN | LOG_ERROR | LOG_FATAL | LOG_SYSERR | LOG_SYSFATAL => true

def newLogger (env : Env) (i : Nat) (l : ThreadLocal) (site : Site) (time_ : Int) (errno : Int32)
    (data : Vector UInt8 kSmallBuffer) : Except Fault (ThreadLocal × Logger) :=
  match site.name with
  | .LOG_TRACE | .LOG_DEBUG => do
    let (l, logger) ← newImpl env i l time_ site.name.level 0 site.file site.line data
    let b ← putAll logger.stream [.cString site.func, .char 32]
    return (l, { logger with stream := b })
  | .LOG_INFO | .LOG_WARN | .LOG_ERROR | .LOG_FATAL => newImpl env i l time_ site.name.level 0 site.file site.line data
  | .LOG_SYSERR | .LOG_SYSFATAL => newImpl env i l time_ site.name.level errno site.file site.line data

def finish (logger : Logger) : Except Fault FixedBuffer :=
  putAll logger.stream [.cString dash, .string logger.basename, .char 58, .int logger.line, .char 10]

/-! ## The system -/

structure Process where
  g_logLevel : LogLevel
  locals : Nat → ThreadLocal
  loggers : Nat → List Logger
  stdout : List UInt8
  aborted : Bool

def initial (g_logLevel : LogLevel) : Process where
  g_logLevel := g_logLevel
  locals := fun _ => .initial
  loggers := fun _ => []
  stdout := []
  aborted := false

/-- The statement of a thread up to its first item. -/
def beginLog (env : Env) (p : Process) (i : Nat) (site : Site) (time_ : Int) (errno : Int32)
    (data : Vector UInt8 kSmallBuffer) : Except Fault Process :=
  if site.name.enabled p.g_logLevel then do
    let (l, logger) ← newLogger env i (p.locals i) site time_ errno data
    return { p with
      locals := Function.update p.locals i l
      loggers := Function.update p.loggers i (logger :: p.loggers i) }
  else return p

/-- An item goes into the stream of the last `Logger` that the thread has made. -/
def putItem (p : Process) (i : Nat) (item : Item) : Except Fault Process :=
  match p.loggers i with
  | [] => .error .dangling
  | logger :: rest => do
    let b ← put logger.stream item
    return { p with loggers := Function.update p.loggers i ({ logger with stream := b } :: rest) }

/-- `Logger::~Logger`, with `defaultOutput` -/
def endLog (p : Process) (i : Nat) : Except Fault Process :=
  match p.loggers i with
  | [] => .error .dangling
  | logger :: rest => do
    let b ← finish logger
    let text ← b.toString
    return { p with
      loggers := Function.update p.loggers i rest
      stdout := p.stdout ++ text
      aborted := decide (logger.level = .FATAL) }

inductive Act where
  | beginLog (i : Nat) (site : Site) (time_ : Int) (errno : Int32) (data : Vector UInt8 kSmallBuffer)
  | putItem (i : Nat) (item : Item)
  | endLog (i : Nat)
  | setLogLevel (level : LogLevel)

def Permitted (p : Process) : Act → Prop
  | .beginLog _ _ _ _ _ => p.aborted = false
  | .putItem i _ => p.aborted = false ∧ p.loggers i ≠ []
  | .endLog i => p.aborted = false ∧ p.loggers i ≠ []
  | .setLogLevel _ => p.aborted = false

def exec (env : Env) (p : Process) : Act → Except Fault Process
  | .beginLog i site time_ errno data => beginLog env p i site time_ errno data
  | .putItem i item => putItem p i item
  | .endLog i => endLog p i
  | .setLogLevel level => .ok { p with g_logLevel := level }

def lts (env : Env) : Lts Process Act where
  init p := ∃ traceSet debugSet, p = initial (initLogLevel traceSet debugSet)
  step p a q := Permitted p a ∧ exec env p a = .ok q

end MyLearning.Logging

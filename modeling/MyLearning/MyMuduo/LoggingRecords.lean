import MyLearning.MyMuduo.Logging

/-!
# What is logged is what is written

A record is a log statement with the thread that made it, its time, its errno and its items. `Book` keeps the
records that each thread has under way and those that are complete. The output of every run is the text of the
complete records, one behind the other in the order in which they were completed, and each has the text of its own
time, although the threads keep only the last second.

A step fails only where a statement begins: if the date is not 17 characters long, if the microseconds are not 6, or if
the second is 0 and the thread has formatted none.
-/

namespace MyLearning.Logging

open LogStream Printf

/-! ## Records -/

structure Record where
  thread : Nat
  site : Site
  time : Int
  errno : Int32
  items : List Item

def seconds (time : Int) : Int := time.tdiv kMicroSecondsPerSecond

def micros (time : Int) : Int := time.tmod kMicroSecondsPerSecond

def microText (env : Env) (time : Int) : List Char :=
  '.' :: (zeroPadded 6 (micros time) ++ if env.g_logTimeZone.isSome then [' '] else ['Z', ' '])

def tidText (env : Env) (i : Nat) : List Char := blankPadded 5 (env.gettid i).toInt ++ [' ']

def dateOf (env : Env) (time : Int) : List Char := dateText (dateTime env (seconds time))

def stamp (env : Env) (i : Nat) (time : Int) (level : LogLevel) : List Item :=
  [.string (bytes (dateOf env time)), .string (bytes (microText env time)), .string (bytes (tidText env i)),
    .string (bytes (LogLevelName level))]

def errnoItems (env : Env) (errno : Int32) : List Item :=
  if errno ≠ 0 then [.cString (env.strerror_tl errno), .cString errnoOpen, .int errno, .cString errnoClose] else []

/-- What a statement says besides its stamp. -/
def Site.note (env : Env) (site : Site) (errno : Int32) : List Item :=
  match site.name with
  | .LOG_TRACE | .LOG_DEBUG => [.cString site.func, .char 32]
  | .LOG_INFO | .LOG_WARN | .LOG_ERROR | .LOG_FATAL => []
  | .LOG_SYSERR | .LOG_SYSFATAL => errnoItems env errno

def Record.head (env : Env) (r : Record) : List Item :=
  stamp env r.thread r.time r.site.name.level ++ r.site.note env r.errno

def Record.tail (r : Record) : List Item :=
  [.cString dash, .string (sourceFile r.site.file), .char 58, .int r.site.line, .char 10]

def Record.all (env : Env) (r : Record) : List Item := r.head env ++ r.items ++ r.tail

/-- The text of a record: what a stream keeps of its items. -/
def Record.text (env : Env) (r : Record) : List UInt8 := contents (r.all env)

def Record.Fits (env : Env) (r : Record) : Prop := ((r.all env).flatMap render).length + 48 ≤ kSmallBuffer

instance (env : Env) (r : Record) : Decidable (r.Fits env) := inferInstanceAs (Decidable (_ ≤ _))

structure Book where
  level : LogLevel
  pending : Nat → List Record
  complete : List Record
  fatal : Bool

def Book.start (level : LogLevel) : Book := ⟨level, fun _ => [], [], false⟩

def Book.step (b : Book) : Act → Book
  | .beginLog i site time_ errno _ =>
    if site.name.enabled b.level then { b with pending := Function.update b.pending i (⟨i, site, time_, errno, []⟩ :: b.pending i) }
    else b
  | .putItem i item =>
    match b.pending i with
    | [] => b
    | r :: rest => { b with pending := Function.update b.pending i ({ r with items := r.items ++ [item] } :: rest) }
  | .endLog i =>
    match b.pending i with
    | [] => b
    | r :: rest => {
        b with
        pending := Function.update b.pending i rest
        complete := b.complete ++ [r]
        fatal := decide (r.site.name.level = .FATAL) }
  | .setLogLevel level => { b with level := level }

/-! ## Texts in a stream -/

section
variable {b : FixedBuffer} {text : List UInt8}

theorem putT_holds (h : Holds b text) {str : List Char} {len : Int} (hlen : (str.length : Int) = len) :
    ∃ b', putT b str len = .ok b' ∧ Holds b' (write text (.string (bytes str))) := by
  obtain ⟨b', hb', hh⟩ := put_holds h (.string (bytes str))
  exact ⟨b', by rw [putT, check_pos hlen, ok_bind]; exact hb', hh⟩

theorem putT_fails {str : List Char} {len : Int} (hlen : ¬ (str.length : Int) = len) : putT b str len = .error .assertion := by
  rw [putT, check_bind_error hlen]

theorem write_fits {item : Item} (h : text.length + (render item).length + 48 ≤ kSmallBuffer) :
    write text item = text ++ render item := by
  have haccepted : item.accepted (kSmallBuffer - text.length) = true := by
    unfold Item.accepted kMaxNumericSize
    split <;> simp <;> omega
  rw [write, if_pos haccepted]

theorem foldl_write_fits : ∀ (items : List Item) (text : List UInt8),
    text.length + (items.flatMap render).length + 48 ≤ kSmallBuffer → items.foldl write text = text ++ items.flatMap render
  | [], text, _ => by simp
  | item :: items, text, h => by
    rw [List.flatMap_cons, List.length_append] at h
    rw [List.foldl_cons, write_fits (by omega), foldl_write_fits items _ (by rw [List.length_append]; omega),
      List.flatMap_cons, List.append_assoc]

theorem Record.text_of_fits {env : Env} {r : Record} (h : r.Fits env) : r.text env = (r.all env).flatMap render :=
  (foldl_write_fits _ [] (by rw [List.length_nil, Nat.zero_add]; exact h)).trans (List.nil_append _)

end

/-! ## The cached texts -/

/-- What a thread has cached: the date of its last second, and its id. -/
structure Cached (env : Env) (i : Nat) (l : ThreadLocal) : Prop where
  time : l.t_lastSecond = 0 ∧ l.t_time = [] ∨ l.t_time = dateText (dateTime env l.t_lastSecond) ∧ l.t_time.length = 17
  tid : l.t_cachedTid = 0 ∨ l.t_tidString = tidText env i ∧ l.t_tidStringLength = (tidText env i).length

def Printable (env : Env) (l : ThreadLocal) (time : Int) : Prop :=
  (dateOf env time).length = 17 ∧ (zeroPadded 6 (micros time)).length = 6 ∧ (seconds time = 0 → l.t_time ≠ [])

theorem initial_cached (env : Env) (i : Nat) : Cached env i .initial := ⟨.inl ⟨rfl, rfl⟩, .inl rfl⟩

section
variable {env : Env} {l : ThreadLocal} {i : Nat} {b : FixedBuffer} {text : List UInt8} {s time : Int}

theorem refreshTime_ok (hc : Cached env i l) (hlen : (dateText (dateTime env s)).length = 17) (hzero : s = 0 → l.t_time ≠ []) :
    ∃ l', refreshTime env l s = .ok l' ∧ Cached env i l' ∧ l'.t_time = dateText (dateTime env s) := by
  unfold refreshTime
  by_cases hs : s = l.t_lastSecond
  · rw [if_neg (not_not.mpr hs)]
    refine ⟨l, rfl, hc, ?_⟩
    rcases hc.time with ⟨hlast, hnil⟩ | ⟨htime, -⟩
    · exact absurd hnil (hzero (hs.trans hlast))
    · rw [htime, hs]
  · rw [if_pos hs]
    dsimp only
    rw [check_pos hlen, ok_bind, snprintf_fits (by omega)]
    exact ⟨_, rfl, ⟨.inr ⟨rfl, hlen⟩, hc.tid⟩, rfl⟩

theorem refreshTime_bad (hc : Cached env i l) (hbad : ¬ ((dateText (dateTime env s)).length = 17 ∧ (s = 0 → l.t_time ≠ []))) :
    (∃ f, refreshTime env l s = .error f) ∨ (refreshTime env l s = .ok l ∧ l.t_time = []) := by
  unfold refreshTime
  by_cases hs : s = l.t_lastSecond
  · rw [if_neg (not_not.mpr hs)]
    refine .inr ⟨rfl, ?_⟩
    rcases hc.time with ⟨-, hnil⟩ | ⟨htime, hlen⟩
    · exact hnil
    · exfalso
      apply hbad
      rw [hs, ← htime]
      refine ⟨hlen, ?_⟩
      rintro - hnil
      rw [hnil] at hlen
      cases hlen
  · rw [if_pos hs]
    dsimp only
    by_cases hlen : (dateText (dateTime env s)).length = 17
    · -- the second 0 is not in the cache, so the cache holds a date
      exfalso
      apply hbad
      refine ⟨hlen, ?_⟩
      rintro hzero hnil
      rcases hc.time with ⟨hlast, -⟩ | ⟨-, hlong⟩
      · exact hs (hzero.trans hlast.symm)
      · rw [hnil] at hlong
        cases hlong
    · exact .inl ⟨_, check_bind_error hlen⟩

theorem putUnit_eq {us unit : List Char} {n : Nat} (hn : unit.length + 7 = n) :
    (do
      check (('.' :: (us ++ unit)).length = n)
      let b ← putT b l.t_time 17
      putT b ('.' :: (us ++ unit)) n) = (do
      check (us.length = 6)
      let b ← putT b l.t_time 17
      putT b ('.' :: (us ++ unit)) ('.' :: (us ++ unit)).length) := by
  have hiff : ('.' :: (us ++ unit)).length = n ↔ us.length = 6 := by
    rw [List.length_cons, List.length_append]
    omega
  by_cases hus : us.length = 6
  · rw [check_pos hus, check_pos (hiff.mpr hus), hiff.mpr hus]
  · rw [check_neg hus, check_neg fun h => hus (hiff.mp h)]
    rfl

theorem putTime_eq : putTime env l b (micros time) = (do
    check ((zeroPadded 6 (micros time)).length = 6)
    let b ← putT b l.t_time 17
    putT b (microText env time) (microText env time).length) := by
  unfold putTime microText
  split
  · exact putUnit_eq (n := 8) rfl
  · exact putUnit_eq (n := 9) rfl

theorem putTime_ok (env : Env) (h : Holds b text) (hlen : l.t_time.length = 17) (hmicro : (zeroPadded 6 (micros time)).length = 6) :
    ∃ b', putTime env l b (micros time) = .ok b' ∧
      Holds b' (write (write text (.string (bytes l.t_time))) (.string (bytes (microText env time)))) := by
  have hdate : (l.t_time.length : Int) = 17 := by rw [hlen]; rfl
  obtain ⟨b₁, hb₁, h₁⟩ := putT_holds h hdate
  obtain ⟨b₂, hb₂, h₂⟩ := putT_holds h₁ (rfl : ((microText env time).length : Int) = _)
  rw [putTime_eq, check_pos hmicro, ok_bind, hb₁, ok_bind]
  exact ⟨b₂, hb₂, h₂⟩

theorem putTime_bad (env : Env) (hbad : l.t_time.length ≠ 17 ∨ (zeroPadded 6 (micros time)).length ≠ 6) :
    ∃ f, putTime env l b (micros time) = .error f := by
  rw [putTime_eq]
  by_cases hmicro : (zeroPadded 6 (micros time)).length = 6
  · have hdate := hbad.resolve_right (not_not.mpr hmicro)
    rw [check_pos hmicro, ok_bind, putT_fails fun heq => hdate (by exact_mod_cast heq), error_bind]
    exact ⟨_, rfl⟩
  · exact ⟨_, check_bind_error hmicro⟩

theorem formatTime_ok (hc : Cached env i l) (h : Holds b text) (hp : Printable env l time) :
    ∃ l' b', formatTime env l b time = .ok (l', b') ∧ Cached env i l' ∧
      Holds b' (write (write text (.string (bytes (dateOf env time)))) (.string (bytes (microText env time)))) := by
  obtain ⟨hdate, hmicro, hzero⟩ := hp
  obtain ⟨l', hl', hc', htime⟩ := refreshTime_ok hc hdate hzero
  obtain ⟨b', hb', h'⟩ := putTime_ok env (l := l') h (by rw [htime]; exact hdate) hmicro
  refine ⟨l', b', ?_, hc', ?_⟩
  · unfold seconds at hl'
    unfold micros at hb'
    rw [formatTime, hl', ok_bind, hb']
    rfl
  · rw [htime] at h'
    exact h'

theorem formatTime_bad (hc : Cached env i l) (hp : ¬ Printable env l time) : ∃ f, formatTime env l b time = .error f := by
  by_cases hdate : (dateOf env time).length = 17 ∧ (seconds time = 0 → l.t_time ≠ [])
  · obtain ⟨l', hl', -, -⟩ := refreshTime_ok hc hdate.1 hdate.2
    have hmicro : (zeroPadded 6 (micros time)).length ≠ 6 := fun hmicro => hp ⟨hdate.1, hmicro, hdate.2⟩
    obtain ⟨f, hf⟩ := putTime_bad env (l := l') (b := b) (.inr hmicro)
    unfold seconds at hl'
    unfold micros at hf
    rw [formatTime, hl', ok_bind, hf]
    exact ⟨f, rfl⟩
  · rcases refreshTime_bad hc hdate with ⟨f, hf⟩ | ⟨hl, hnil⟩
    · unfold seconds at hf
      rw [formatTime, hf]
      exact ⟨f, rfl⟩
    · have hempty : l.t_time.length ≠ 17 := by rw [hnil]; decide
      obtain ⟨f, hf⟩ : ∃ f, putTime env l b (micros time) = .error f := putTime_bad env (.inl hempty)
      unfold seconds at hl
      unfold micros at hf
      rw [formatTime, hl, ok_bind, hf]
      exact ⟨f, rfl⟩

theorem length_tidText (env : Env) (i : Nat) : (tidText env i).length < 32 := by
  have hle := (env.gettid i).le_toInt
  have hlt := (env.gettid i).toInt_lt
  have hlen := length_number_le (i := (env.gettid i).toInt) (k := 10) (by decide) (by omega)
  rw [tidText, blankPadded, List.length_append, List.length_append, List.length_replicate]
  simp only [List.length_cons, List.length_nil]
  omega

theorem currentTid_cached (hc : Cached env i l) : Cached env i (currentTid env i l) ∧
    (currentTid env i l).t_tidString = tidText env i ∧ (currentTid env i l).t_tidStringLength = (tidText env i).length := by
  unfold currentTid cacheTid
  split
  · have hfits : snprintf 32 (tidText env i) = tidText env i := snprintf_fits (length_tidText env i)
    exact ⟨⟨hc.time, .inr ⟨hfits, rfl⟩⟩, hfits, rfl⟩
  · rename_i htid
    obtain ⟨hstring, hlen⟩ := hc.tid.resolve_left htid
    exact ⟨hc, hstring, hlen⟩

theorem levelName_length (level : LogLevel) : ((LogLevelName level).length : Int) = 6 := by
  cases level <;> rfl

/-! ## The functions against the records -/

theorem putErrno_holds (env : Env) (h : Holds b text) (errno : Int32) :
    ∃ b', putErrno env b errno = .ok b' ∧ Holds b' ((errnoItems env errno).foldl write text) := by
  unfold putErrno errnoItems
  split
  · exact putAll_holds _ h
  · exact ⟨b, rfl, h⟩

theorem foldl_stamp (level : LogLevel) (text : List UInt8) : (stamp env i time level).foldl write text =
    write (write (write (write text (.string (bytes (dateOf env time)))) (.string (bytes (microText env time))))
      (.string (bytes (tidText env i)))) (.string (bytes (LogLevelName level))) := by
  simp only [stamp, List.foldl_cons, List.foldl_nil]

theorem newImpl_ok (hc : Cached env i l) (hp : Printable env l time) (level : LogLevel) (errno : Int32) (file : List UInt8)
    (line : Int32) (data : Vector UInt8 kSmallBuffer) :
    ∃ l' b', newImpl env i l time level errno file line data = .ok (l', ⟨b', level, line, sourceFile file⟩) ∧
      Cached env i l' ∧ Holds b' ((stamp env i time level ++ errnoItems env errno).foldl write []) := by
  obtain ⟨l₁, b₁, hb₁, hc₁, h₁⟩ := formatTime_ok hc (holds_fresh data) hp
  obtain ⟨hc₂, hstring, hlen⟩ := currentTid_cached hc₁
  obtain ⟨b₂, hb₂, h₂⟩ := putT_holds h₁ hlen.symm
  obtain ⟨b₃, hb₃, h₃⟩ := putT_holds h₂ (levelName_length level)
  obtain ⟨b₄, hb₄, h₄⟩ := putErrno_holds env h₃ errno
  refine ⟨currentTid env i l₁, b₄, ?_, hc₂, ?_⟩
  · rw [newImpl, hb₁, ok_bind]
    dsimp only
    rw [hstring, hb₂, ok_bind, hb₃, ok_bind, hb₄]
    rfl
  · rw [List.foldl_append, foldl_stamp]
    exact h₄

theorem newImpl_bad (hc : Cached env i l) (hp : ¬ Printable env l time) (level : LogLevel) (errno : Int32)
    (file : List UInt8) (line : Int32) (data : Vector UInt8 kSmallBuffer) :
    ∃ f, newImpl env i l time level errno file line data = .error f := by
  obtain ⟨f, hf⟩ := formatTime_bad (b := fresh data) hc hp
  exact ⟨f, by rw [newImpl, hf, error_bind]⟩

theorem newLogger_ok (hc : Cached env i l) (hp : Printable env l time) (site : Site) (errno : Int32)
    (data : Vector UInt8 kSmallBuffer) :
    ∃ l' b', newLogger env i l site time errno data = .ok (l', ⟨b', site.name.level, site.line, sourceFile site.file⟩) ∧
      Cached env i l' ∧ Holds b' ((stamp env i time site.name.level ++ site.note env errno).foldl write []) := by
  unfold newLogger Site.note
  cases site.name with
  | LOG_TRACE | LOG_DEBUG =>
    obtain ⟨l', b₁, hb₁, hc', h₁⟩ := newImpl_ok hc hp _ 0 site.file site.line data
    obtain ⟨b₂, hb₂, h₂⟩ := putAll_holds [.cString site.func, .char 32] h₁
    refine ⟨l', b₂, ?_, hc', ?_⟩
    · dsimp only
      rw [hb₁, ok_bind]
      dsimp only
      rw [hb₂]
      rfl
    · rw [List.foldl_append]
      exact h₂
  | LOG_INFO | LOG_WARN | LOG_ERROR | LOG_FATAL => exact newImpl_ok hc hp _ 0 site.file site.line data
  | LOG_SYSERR | LOG_SYSFATAL => exact newImpl_ok hc hp _ errno site.file site.line data

theorem newLogger_bad (hc : Cached env i l) (hp : ¬ Printable env l time) (site : Site) (errno : Int32)
    (data : Vector UInt8 kSmallBuffer) : ∃ f, newLogger env i l site time errno data = .error f := by
  unfold newLogger
  cases site.name with
  | LOG_TRACE | LOG_DEBUG =>
    obtain ⟨f, hf⟩ := newImpl_bad hc hp _ 0 site.file site.line data
    exact ⟨f, by dsimp only; rw [hf]; rfl⟩
  | LOG_INFO | LOG_WARN | LOG_ERROR | LOG_FATAL => exact newImpl_bad hc hp _ 0 site.file site.line data
  | LOG_SYSERR | LOG_SYSFATAL => exact newImpl_bad hc hp _ errno site.file site.line data

end

/-! ## The process against the book -/

/-- The logger of a record that is under way. -/
structure Writes (env : Env) (logger : Logger) (r : Record) : Prop where
  stream : Holds logger.stream ((r.head env ++ r.items).foldl write [])
  level : logger.level = r.site.name.level
  line : logger.line = r.site.line
  basename : logger.basename = sourceFile r.site.file

structure Keeps (env : Env) (p : Process) (b : Book) : Prop where
  level : p.g_logLevel = b.level
  cached : ∀ i, Cached env i (p.locals i)
  loggers : ∀ i, List.Forall₂ (Writes env) (p.loggers i) (b.pending i)
  stdout : p.stdout = b.complete.flatMap (Record.text env)
  aborted : p.aborted = b.fatal

theorem initial_keeps (env : Env) (level : LogLevel) : Keeps env (initial level) (.start level) :=
  ⟨rfl, fun i => initial_cached env i, fun _ => .nil, rfl, rfl⟩

def Unprintable (env : Env) (p : Process) : Act → Prop
  | .beginLog i site time_ _ _ => site.name.enabled p.g_logLevel = true ∧ ¬ Printable env (p.locals i) time_
  | _ => False

section
variable {env : Env} {p q : Process} {b : Book}

theorem forall₂_update {R : Logger → Record → Prop} {f : Nat → List Logger} {g : Nat → List Record}
    (h : ∀ i, List.Forall₂ R (f i) (g i)) {i : Nat} {x : List Logger} {y : List Record} (hxy : List.Forall₂ R x y) :
    ∀ j, List.Forall₂ R (Function.update f i x j) (Function.update g i y j) := by
  intro j
  by_cases hj : j = i
  · subst hj
    rw [Function.update_self, Function.update_self]
    exact hxy
  · rw [Function.update_of_ne hj, Function.update_of_ne hj]
    exact h j

theorem finish_holds {logger : Logger} {r : Record} (h : Writes env logger r) :
    ∃ b', finish logger = .ok b' ∧ b'.toString = .ok (r.text env) := by
  obtain ⟨b', hb', hh⟩ := putAll_holds r.tail h.stream
  refine ⟨b', ?_, ?_⟩
  · rw [finish, h.basename, h.line]
    exact hb'
  · have hall : (r.all env).foldl write [] = r.tail.foldl write ((r.head env ++ r.items).foldl write []) := by
      rw [Record.all, List.foldl_append]
    rw [hh.toString, Record.text, contents, hall]

theorem Keeps.exec (h : Keeps env p b) {a : Act} (hp : Permitted p a) :
    (Unprintable env p a ∧ ∃ f, exec env p a = .error f) ∨
      (¬ Unprintable env p a ∧ ∃ q, exec env p a = .ok q ∧ Keeps env q (b.step a)) := by
  cases a with
  | beginLog i site time_ errno data =>
    by_cases hen : site.name.enabled p.g_logLevel = true
    · by_cases hprint : Printable env (p.locals i) time_
      · obtain ⟨l', b', hb', hc', hh⟩ := newLogger_ok (h.cached i) hprint site errno data
        refine .inr ⟨fun hun => hun.2 hprint, {
          p with
          locals := Function.update p.locals i l'
          loggers := Function.update p.loggers i
            (⟨b', site.name.level, site.line, sourceFile site.file⟩ :: p.loggers i) }, ?_, ?_⟩
        · simp only [Logging.exec, beginLog, hen, if_true, hb', ok_bind]
          rfl
        · have hstep : b.step (.beginLog i site time_ errno data) =
              { b with pending := Function.update b.pending i (⟨i, site, time_, errno, []⟩ :: b.pending i) } :=
            if_pos (h.level ▸ hen)
          rw [hstep]
          refine ⟨h.level, ?_, ?_, h.stdout, h.aborted⟩
          · intro j
            by_cases hj : j = i
            · subst hj
              simpa using hc'
            · simpa [Function.update_of_ne hj] using h.cached j
          · refine forall₂_update h.loggers (.cons ⟨?_, rfl, rfl, rfl⟩ (h.loggers i))
            rw [List.append_nil]
            exact hh
      · obtain ⟨f, hf⟩ := newLogger_bad (h.cached i) hprint site errno data
        refine .inl ⟨⟨hen, hprint⟩, f, ?_⟩
        simp only [Logging.exec, beginLog, hen, if_true, hf, error_bind]
    · refine .inr ⟨fun hun => hen hun.1, p, if_neg hen, ?_⟩
      have hstep : b.step (.beginLog i site time_ errno data) = b := if_neg (h.level ▸ hen)
      rw [hstep]
      exact h
  | putItem i item =>
    refine .inr ⟨id, ?_⟩
    -- the item goes to the innermost statement of its thread
    have hi := h.loggers i
    generalize hl : p.loggers i = ls at hi
    generalize hr : b.pending i = rs at hi
    cases hi with
    | nil => exact absurd hl hp.2
    | @cons logger r ls rs hw hrest =>
      obtain ⟨b', hb', hh⟩ := put_holds hw.stream item
      have hstep : b.step (.putItem i item) =
          { b with pending := Function.update b.pending i ({ r with items := r.items ++ [item] } :: rs) } := by
        simp [Book.step, hr]
      rw [hstep]
      refine ⟨{ p with loggers := Function.update p.loggers i ({ logger with stream := b' } :: ls) }, ?_,
        ⟨h.level, h.cached, forall₂_update h.loggers (.cons ⟨?_, hw.level, hw.line, hw.basename⟩ hrest), h.stdout,
          h.aborted⟩⟩
      · simp only [Logging.exec, Logging.putItem, hl, hb', ok_bind]
        rfl
      · change Holds b' ((r.head env ++ (r.items ++ [item])).foldl write [])
        rw [← List.append_assoc, List.foldl_append]
        exact hh
  | endLog i =>
    refine .inr ⟨id, ?_⟩
    have hi := h.loggers i
    generalize hl : p.loggers i = ls at hi
    generalize hr : b.pending i = rs at hi
    cases hi with
    | nil => exact absurd hl hp.2
    | @cons logger r ls rs hw hrest =>
      obtain ⟨b', hb', htext⟩ := finish_holds hw
      have hstep : b.step (.endLog i) =
          { b with
            pending := Function.update b.pending i rs
            complete := b.complete ++ [r]
            fatal := decide (r.site.name.level = .FATAL) } := by
        simp [Book.step, hr]
      rw [hstep]
      refine ⟨{
          p with
          loggers := Function.update p.loggers i ls
          stdout := p.stdout ++ r.text env
          aborted := decide (logger.level = .FATAL) }, ?_,
        ⟨h.level, h.cached, forall₂_update h.loggers hrest, ?_, ?_⟩⟩
      · simp only [Logging.exec, endLog, hl, hb', htext, ok_bind]
        rfl
      · simp [h.stdout, List.flatMap_append]
      · simp [hw.level]
  | setLogLevel level => exact .inr ⟨id, _, rfl, ⟨rfl, h.cached, h.loggers, h.stdout, h.aborted⟩⟩

theorem Keeps.step (h : Keeps env p b) {a : Act} (hs : (lts env).step p a q) : Keeps env q (b.step a) := by
  obtain ⟨hp, hs⟩ := hs
  rcases h.exec hp with ⟨-, f, hf⟩ | ⟨-, q', hq, hk⟩
  · cases hf.symm.trans hs
  · cases hq.symm.trans hs
    exact hk

theorem Keeps.run {tr : List Act} (hr : (lts env).Run p tr q) : ∀ {b}, Keeps env p b → Keeps env q (tr.foldl Book.step b) := by
  induction hr with
  | nil _ => intro b h; exact h
  | cons hs _ ih => intro b h; exact ih (h.step hs)

theorem keeps_of_run {p₀ : Process} {tr : List Act} (h₀ : (lts env).init p₀) (hr : (lts env).Run p₀ tr p) :
    Keeps env p (tr.foldl Book.step (.start p₀.g_logLevel)) := by
  obtain ⟨traceSet, debugSet, rfl⟩ := h₀
  exact Keeps.run hr (initial_keeps env _)

/-- The book has room for the action, and the time of a statement can be written whatever its thread has cached. -/
def Book.Goes (env : Env) (b : Book) : Act → Prop
  | .beginLog _ _ time_ _ _ =>
    b.fatal = false ∧ (dateOf env time_).length = 17 ∧ (zeroPadded 6 (micros time_)).length = 6 ∧ seconds time_ ≠ 0
  | .putItem i _ | .endLog i => b.fatal = false ∧ b.pending i ≠ []
  | .setLogLevel _ => b.fatal = false

def Book.Plays (env : Env) : Book → List Act → Prop
  | _, [] => True
  | b, a :: tr => b.Goes env a ∧ (b.step a).Plays env tr

theorem Keeps.open_of_pending (h : Keeps env p b) {i : Nat} (hi : b.pending i ≠ []) : p.loggers i ≠ [] := by
  intro hnil
  have hl := h.loggers i
  rw [hnil] at hl
  exact hi (List.forall₂_nil_left_iff.mp hl)

theorem Keeps.permitted (h : Keeps env p b) {a : Act} (hg : b.Goes env a) : Permitted p a := by
  cases a with
  | beginLog => exact h.aborted.trans hg.1
  | putItem i | endLog i => exact ⟨h.aborted.trans hg.1, h.open_of_pending hg.2⟩
  | setLogLevel => exact h.aborted.trans hg

theorem Book.Goes.printable {a : Act} (hg : b.Goes env a) : ¬ Unprintable env p a := by
  cases a with
  | beginLog =>
    obtain ⟨-, hdate, hmicros, hsecond⟩ := hg
    intro hun
    exact hun.2 ⟨hdate, hmicros, fun hzero => absurd hzero hsecond⟩
  | putItem | endLog | setLogLevel => exact id

theorem Keeps.plays : ∀ {tr : List Act} {p : Process} {b : Book}, Keeps env p b → b.Plays env tr →
    ∃ q, (lts env).Run p tr q
  | [], p, _, _, _ => ⟨p, .nil p⟩
  | a :: tr, p, b, h, hp => by
    have hpermitted := h.permitted hp.1
    obtain ⟨hun, -⟩ | ⟨-, q, hq, hk⟩ := h.exec hpermitted
    · exact absurd hun hp.1.printable
    · obtain ⟨u, hu⟩ := Keeps.plays hk hp.2
      exact ⟨u, .cons ⟨hpermitted, hq⟩ hu⟩

end

/-- **What is logged is what is written.** Take any run: any threads, whose statements may log within one another, at
any times and levels. The output is the text of the records that are complete, one behind the other in the order in
which they were completed, and the process is aborted if the last of them is fatal. The text of a record that fits is
all of its items: its own time, thread and level, what was put in, the file and the line. A step fails if and
only if it begins a record whose time cannot be written. -/
theorem log_writes_records (env : Env) {p₀ p : Process} {tr : List Act} (h₀ : (lts env).init p₀)
    (hr : (lts env).Run p₀ tr p) :
    (p.stdout = (tr.foldl Book.step (.start p₀.g_logLevel)).complete.flatMap (Record.text env) ∧
      p.aborted = (tr.foldl Book.step (.start p₀.g_logLevel)).fatal) ∧
      (∀ r : Record, r.Fits env → r.text env = (r.all env).flatMap render) ∧
      ∀ a, Permitted p a → ((∃ f, exec env p a = .error f) ↔ Unprintable env p a) := by
  have hk := keeps_of_run h₀ hr
  refine ⟨⟨hk.stdout, hk.aborted⟩, fun r => Record.text_of_fits, ?_⟩
  intro a hp
  rcases hk.exec hp with ⟨hun, hf⟩ | ⟨hun, q, hq, -⟩
  · exact iff_of_true hf hun
  · refine iff_of_false ?_ hun
    rintro ⟨f, hf⟩
    cases hq.symm.trans hf

def utc : Env where
  g_logTimeZone := none
  toUtcTime _ := ⟨2025, 1, 2, 3, 4, 5⟩
  strerror_tl _ := ⟨ascii "Success", by decide⟩
  gettid i := if i = 0 then 7 else 8

def hello : Site := ⟨.LOG_INFO, ascii "src/main.cpp", 42, ⟨ascii "main", by decide⟩⟩

def warning : Site := ⟨.LOG_WARN, ascii "src/net.cpp", 9, ⟨ascii "poll", by decide⟩⟩

/-- An item of the first statement logs a warning, and a second thread logs meanwhile. -/
def nestedTrace : List Act :=
  let data := .replicate kSmallBuffer 0
  [.beginLog 0 hello 1735787045000006 0 data, .putItem 0 (.string (ascii "n=")),
    .beginLog 0 warning 1735787045000008 0 data, .beginLog 1 hello 1735787045000009 0 data, .putItem 0 (.int (-5)),
    .endLog 0, .endLog 1, .putItem 0 (.int 6), .endLog 0]

theorem log_writes_records_nested : ∃ p, (lts utc).Run (initial .INFO) nestedTrace p ∧
    p.stdout = ascii "20250102 03:04:05.000008Z     7 WARN  -5 - net.cpp:9\n" ++
      (ascii "20250102 03:04:05.000009Z     8 INFO   - main.cpp:42\n" ++
        ascii "20250102 03:04:05.000006Z     7 INFO  n=6 - main.cpp:42\n") := by
  have h₀ : (lts utc).init (initial .INFO) := ⟨false, false, rfl⟩
  have hplays : (Book.start .INFO).Plays utc nestedTrace := by
    refine ⟨⟨rfl, ?_⟩, ⟨rfl, ?_⟩, ⟨rfl, ?_⟩, ⟨rfl, ?_⟩, ⟨rfl, ?_⟩, ⟨rfl, ?_⟩, ⟨rfl, ?_⟩, ⟨rfl, ?_⟩, ⟨rfl, ?_⟩, trivial⟩
    all_goals first | exact ⟨by decide, by decide, by decide⟩ | exact List.cons_ne_nil _ _
  obtain ⟨p, hr⟩ := (initial_keeps utc .INFO).plays hplays
  obtain ⟨⟨hout, -⟩, hfits, -⟩ := log_writes_records utc h₀ hr
  have hcomplete : (nestedTrace.foldl Book.step (.start .INFO)).complete =
      [⟨0, warning, 1735787045000008, 0, [.int (-5)]⟩, ⟨1, hello, 1735787045000009, 0, []⟩,
        ⟨0, hello, 1735787045000006, 0, [.string (ascii "n="), .int 6]⟩] := rfl
  have hwarning : (Record.mk 0 warning 1735787045000008 0 [.int (-5)]).text utc =
      ascii "20250102 03:04:05.000008Z     7 WARN  -5 - net.cpp:9\n" := by
    rw [hfits _ (by decide)]
    decide
  have hsecond : (Record.mk 1 hello 1735787045000009 0 []).text utc =
      ascii "20250102 03:04:05.000009Z     8 INFO   - main.cpp:42\n" := by
    rw [hfits _ (by decide)]
    decide
  have hfirst : (Record.mk 0 hello 1735787045000006 0 [.string (ascii "n="), .int 6]).text utc =
      ascii "20250102 03:04:05.000006Z     7 INFO  n=6 - main.cpp:42\n" := by
    rw [hfits _ (by decide)]
    decide
  refine ⟨p, hr, ?_⟩
  have hlevel : (initial .INFO).g_logLevel = .INFO := rfl
  rw [hout, hlevel, hcomplete]
  simp only [List.flatMap_cons, List.flatMap_nil, List.append_nil, hwarning, hsecond, hfirst]

end MyLearning.Logging

import SpeckitLog.LogEntry.Fields
import SpeckitLog.Lib.Padded

/-!
# Reading a log file back

A log file is the records of its entries, one behind the other.  Nothing in a record
is escaped: a file can be read back when each text keeps clear of what ends it.

## Main definitions

* `logText` — the records of a list of entries.
* `OneLine` — the entries that can be read back.
* `SplitsBack` — the files of some entries have one line for each entry, and determine
  the levels, tags and messages.

## Main results

* `splitsBack_oneLine` — files of such entries are read back.
-/

namespace SpeckitLog

open Text

variable {τ β : Type*}

/-! ### The characters of a record -/

/-- The characters of a timestamp. -/
theorem mem_formatTimestamp {localtime : ℤ → Tm} {ms : ℤ} {c : Char}
    (h : c ∈ formatTimestamp localtime ms) :
    c.isDigit = true ∨ c = '-' ∨ c = ' ' ∨ c = ':' ∨ c = '.' := by
  have hpad : ∀ {w : ℕ} {n : ℤ}, c ∈ padded w n → c.isDigit = true ∨ c = '-' := fun hc =>
    (mem_padded hc).symm
  simp only [formatTimestamp, List.mem_append, List.mem_cons] at h
  rcases h with (((((h | h | h) | h | h) | h | h) | h | h) | h | h) | h | h <;>
    first
    | exact (hpad h).imp id Or.inl
    | simp [h]

theorem notMem_formatTimestamp {localtime : ℤ → Tm} {ms : ℤ} {c : Char} (hdigit : c.isDigit = false)
    (hc : c ∉ ['-', ' ', ':', '.']) : c ∉ formatTimestamp localtime ms := by
  intro h
  simp only [List.mem_cons, List.not_mem_nil, or_false] at hc
  rcases mem_formatTimestamp h with hd | hrest
  · rw [hd] at hdigit
    contradiction
  · exact hc hrest

theorem notMem_decimal {n : ℤ} {c : Char} (hdigit : c.isDigit = false) (hc : c ≠ '-') :
    c ∉ decimal n := by
  intro h
  rcases mem_decimal h with heq | hd
  · exact hc heq
  · rw [hd] at hdigit
    contradiction

/-! ### One record -/

/-- A record without its newline. -/
def lineOf (platform : Platform τ) (entry : LogEntry τ β) (tag message : Text) : Text :=
  '[' :: (levelToString entry.level ++ ']' :: ' ' ::
    (formatTimestamp platform.localtime entry.timestampMs ++ [' '] ++ '[' ::
      (decimal entry.processId ++ ", ".toList ++ platform.threadIdStr entry.threadId ++
        ']' :: ' ' :: '[' :: (tag ++ ']' :: (": ".toList ++ message)))))

theorem recordOf_eq (platform : Platform τ) (entry : LogEntry τ β) (tag message : Text) :
    recordOf platform entry tag message = lineOf platform entry tag message ++ ['\n'] := by
  simp [recordOf, lineOf]

/-- The texts of thread ids are numbers, or at least keep clear of what ends them. -/
def PlainThreadIds (platform : Platform τ) : Prop :=
  ∀ id, ']' ∉ platform.threadIdStr id ∧ '\n' ∉ platform.threadIdStr id

theorem notMem_levelToString (level : LogLevel) :
    ']' ∉ levelToString level ∧ '\n' ∉ levelToString level := by
  unfold levelToString
  split
  · decide
  · split
    · decide
    · split
      · decide
      · split <;> decide

/-- A record is one line when its texts are. -/
theorem newline_notMem_lineOf {platform : Platform τ} (hthread : PlainThreadIds platform)
    {entry : LogEntry τ β} {tag message : Text} (htag : '\n' ∉ tag) (hmessage : '\n' ∉ message) :
    '\n' ∉ lineOf platform entry tag message := by
  have htime : '\n' ∉ formatTimestamp platform.localtime entry.timestampMs :=
    notMem_formatTimestamp (by decide) (by decide)
  have hpid : '\n' ∉ decimal entry.processId := notMem_decimal (by decide) (by decide)
  simp [lineOf, (notMem_levelToString entry.level).2, htime, hpid, (hthread entry.threadId).2,
    htag, hmessage]

/-- **A line determines** what it says of its level, its tag and its message. -/
theorem lineOf_inj {platform : Platform τ} (hthread : PlainThreadIds platform)
    {entry entry' : LogEntry τ β} {tag tag' message message' : Text}
    (htag : ¬ "]: ".toList <:+: tag) (htag' : ¬ "]: ".toList <:+: tag')
    (h : lineOf platform entry tag message = lineOf platform entry' tag' message') :
    levelToString entry.level = levelToString entry'.level ∧ tag = tag' ∧ message = message' := by
  have hids : ∀ e : LogEntry τ β, ']' ∉ decimal e.processId ++ ", ".toList ++
      platform.threadIdStr e.threadId := by
    intro e
    have hpid : ']' ∉ decimal e.processId := notMem_decimal (by decide) (by decide)
    simp only [List.mem_append, not_or]
    exact ⟨⟨hpid, by decide⟩, (hthread e.threadId).1⟩
  have htimes : ∀ e : LogEntry τ β,
      '[' ∉ formatTimestamp platform.localtime e.timestampMs ++ [' '] := by
    intro e
    have htime : '[' ∉ formatTimestamp platform.localtime e.timestampMs :=
      notMem_formatTimestamp (by decide) (by decide)
    simp only [List.mem_append, not_or]
    exact ⟨htime, by decide⟩
  unfold lineOf at h
  obtain ⟨hlevel, h⟩ := append_cons_inj (notMem_levelToString entry.level).1
    (notMem_levelToString entry'.level).1 (List.tail_eq_of_cons_eq h)
  obtain ⟨-, h⟩ := append_cons_inj (htimes entry) (htimes entry') (List.tail_eq_of_cons_eq h)
  obtain ⟨-, h⟩ := append_cons_inj (hids entry) (hids entry') h
  have hdelimiter : ']' ∉ ": ".toList := by decide
  exact ⟨hlevel, append_pattern_inj hdelimiter htag htag'
    (List.tail_eq_of_cons_eq (List.tail_eq_of_cons_eq h))⟩

/-! ### The file -/

/-- The records of the entries. -/
def logText (platform : Platform τ) (memory : β → Text) (entries : List (LogEntry τ β)) :
    Option Text :=
  (entries.mapM (formatLogEntry platform memory)).map List.flatten

/-- The level, the tag and the message. -/
def fields (memory : β → Text) (entry : LogEntry τ β) : LogLevel × Text × Text :=
  (entry.level, entry.tag.contents memory, entry.message.contents memory)

/-- The record has the tag and the message in it as they are. -/
def Printed (memory : β → Text) (entry : LogEntry τ β) : Prop :=
  entry.tag.IsCString memory ∧ entry.message.IsCString memory

/-- The texts have no newline in them. -/
def NoNewline (memory : β → Text) (entry : LogEntry τ β) : Prop :=
  '\n' ∉ entry.tag.contents memory ∧ '\n' ∉ entry.message.contents memory

/-- The tag has nothing in it that could end it. -/
def NoDelimiter (memory : β → Text) (entry : LogEntry τ β) : Prop :=
  ¬ "]: ".toList <:+: entry.tag.contents memory

/-- The levels that have a name. -/
def LogLevel.Named (level : LogLevel) : Prop :=
  level = .debug ∨ level = .info ∨ level = .warning ∨ level = .error

/-- The entries whose records can be read back. -/
structure OneLine (memory : β → Text) (entry : LogEntry τ β) : Prop where
  printed : Printed memory entry
  noNewline : NoNewline memory entry
  noDelimiter : NoDelimiter memory entry
  named : entry.level.Named

/-- The files of such entries have a line for each entry, and no file is that of two lists. -/
def SplitsBack (platform : Platform τ) (memory memory' : β → Text)
    (P : (β → Text) → LogEntry τ β → Prop) : Prop :=
  (∀ entries, (∀ entry ∈ entries, P memory entry) →
    ∃ text, logText platform memory entries = some text ∧ lineCount text = entries.length) ∧
  ∀ entries entries', (∀ entry ∈ entries, P memory entry) →
    (∀ entry ∈ entries', P memory' entry) →
    logText platform memory entries = logText platform memory' entries' →
    entries.map (fields memory) = entries'.map (fields memory')

theorem levelToString_inj {level level' : LogLevel} (h : level.Named) (h' : level'.Named)
    (heq : levelToString level = levelToString level') : level = level' := by
  rcases h with rfl | rfl | rfl | rfl <;> rcases h' with rfl | rfl | rfl | rfl <;>
    first
    | rfl
    | exact absurd heq (by decide)

/-- The line of an entry whose texts are printed as they are. -/
def entryLine (platform : Platform τ) (memory : β → Text) (entry : LogEntry τ β) : Text :=
  lineOf platform entry (entry.tag.contents memory) (entry.message.contents memory)

theorem formatLogEntry_eq {platform : Platform τ} {memory : β → Text} {entry : LogEntry τ β}
    (h : Printed memory entry) :
    formatLogEntry platform memory entry = some (entryLine platform memory entry ++ ['\n']) := by
  unfold formatLogEntry
  rw [StringView.data_of_isCString h.1, StringView.data_of_isCString h.2]
  exact congrArg some (recordOf_eq platform entry _ _)

/-- The file is the lines of the entries. -/
theorem logText_eq {platform : Platform τ} {memory : β → Text} {entries : List (LogEntry τ β)}
    (h : ∀ entry ∈ entries, Printed memory entry) :
    logText platform memory entries = some (unlines (entries.map (entryLine platform memory))) := by
  induction entries with
  | nil => rfl
  | cons entry entries ih =>
    have hrest := ih fun e he => h e (List.mem_cons_of_mem _ he)
    unfold logText at hrest ⊢
    obtain ⟨records, hrecords, htext⟩ := Option.map_eq_some_iff.mp hrest
    rw [List.mapM_cons, formatLogEntry_eq (h entry List.mem_cons_self), hrecords]
    simp [unlines_cons, htext]

theorem newline_notMem_entryLine {platform : Platform τ} (hthread : PlainThreadIds platform)
    {memory : β → Text} {entries : List (LogEntry τ β)}
    (h : ∀ entry ∈ entries, NoNewline memory entry) :
    ∀ line ∈ entries.map (entryLine platform memory), '\n' ∉ line := by
  intro line hline
  obtain ⟨entry, hentry, rfl⟩ := List.mem_map.mp hline
  exact newline_notMem_lineOf hthread (h entry hentry).1 (h entry hentry).2

/-- Entries with equal lines have equal fields. -/
theorem map_fields_eq {platform : Platform τ} (hthread : PlainThreadIds platform)
    {memory memory' : β → Text} {entries entries' : List (LogEntry τ β)}
    (h : ∀ entry ∈ entries, OneLine memory entry) (h' : ∀ entry ∈ entries', OneLine memory' entry)
    (heq : entries.map (entryLine platform memory) =
      entries'.map (entryLine platform memory')) :
    entries.map (fields memory) = entries'.map (fields memory') := by
  induction entries generalizing entries' with
  | nil =>
    cases entries' with
    | nil => rfl
    | cons entry' entries' => contradiction
  | cons entry entries ih =>
    cases entries' with
    | nil => contradiction
    | cons entry' entries' =>
      have hentry := h entry List.mem_cons_self
      have hentry' := h' entry' List.mem_cons_self
      rw [List.map_cons, List.map_cons] at heq
      obtain ⟨hlevel, htag, hmessage⟩ := lineOf_inj hthread hentry.noDelimiter hentry'.noDelimiter
        (List.head_eq_of_cons_eq heq)
      have hfields : fields memory entry = fields memory' entry' := by
        unfold fields
        rw [levelToString_inj hentry.named hentry'.named hlevel, htag, hmessage]
      rw [List.map_cons, List.map_cons, hfields,
        ih (fun e he => h e (List.mem_cons_of_mem _ he))
          (fun e he => h' e (List.mem_cons_of_mem _ he)) (List.tail_eq_of_cons_eq heq)]

/-- **A log file splits back into its records** when the texts of its entries keep clear of
what ends them. -/
theorem splitsBack_oneLine {platform : Platform τ} (hthread : PlainThreadIds platform)
    (memory memory' : β → Text) : SplitsBack platform memory memory' OneLine := by
  constructor
  · intro entries h
    refine ⟨_, logText_eq fun e he => (h e he).printed, ?_⟩
    rw [lineCount_unlines (newline_notMem_entryLine hthread fun e he => (h e he).noNewline),
      List.length_map]
  · intro entries entries' h h' heq
    rw [logText_eq fun e he => (h e he).printed, logText_eq fun e he => (h' e he).printed] at heq
    exact map_fields_eq hthread h h' (unlines_inj
      (newline_notMem_entryLine hthread fun e he => (h e he).noNewline)
      (newline_notMem_entryLine hthread fun e he => (h' e he).noNewline) (Option.some.inj heq))

/-! ### Entries of whole strings -/

/-- Every text is a string, and keeps a NUL behind its contents. -/
def strings (t : Text) : Text := t ++ [nul]

/-- An entry whose views are of whole strings. -/
def entryOf (level : LogLevel) (tag message : Text) : LogEntry ℕ Text where
  level := level
  timestampMs := 0
  processId := 7
  threadId := 1
  tag := .ofString tag tag
  message := .ofString message message

theorem contents_ofString (t : Text) : (StringView.ofString t t).contents strings = t := by
  simp [StringView.contents, StringView.ofString, strings]

theorem printed_entryOf {level : LogLevel} {tag message : Text} (htag : nul ∉ tag)
    (hmessage : nul ∉ message) : Printed strings (entryOf level tag message) := by
  have hview : ∀ t : Text, nul ∉ t → (StringView.ofString t t).IsCString strings := by
    intro t ht
    refine ⟨by rwa [contents_ofString], ?_⟩
    simp [StringView.ofString, strings]
  exact ⟨hview tag htag, hview message hmessage⟩

theorem noNewline_entryOf {level : LogLevel} {tag message : Text} (htag : '\n' ∉ tag)
    (hmessage : '\n' ∉ message) : NoNewline strings (entryOf level tag message) := by
  constructor
  · exact (contents_ofString tag).symm ▸ htag
  · exact (contents_ofString message).symm ▸ hmessage

theorem noDelimiter_entryOf {level : LogLevel} {tag message : Text}
    (htag : ¬ "]: ".toList <:+: tag) : NoDelimiter strings (entryOf level tag message) := by
  unfold NoDelimiter
  rw [show (entryOf level tag message).tag = .ofString tag tag from rfl, contents_ofString]
  exact htag

theorem plainThreadIds_atEpoch : PlainThreadIds .atEpoch := by
  intro id
  have hbracket : ']' ∉ decimal id := notMem_decimal (by decide) (by decide)
  have hnewline : '\n' ∉ decimal id := notMem_decimal (by decide) (by decide)
  exact ⟨hbracket, hnewline⟩

/-- Entries of short texts: what would end a tag stands in a message, and what would end a
thread id in a tag. -/
theorem oneLine_entryOf :
    OneLine strings (entryOf .info "app".toList "started [ok]: 1".toList) ∧
      OneLine strings (entryOf .error "net]".toList "".toList) where
  left :=
    { printed := printed_entryOf (by decide) (by decide)
      noNewline := noNewline_entryOf (by decide) (by decide)
      noDelimiter := noDelimiter_entryOf (by decide)
      named := Or.inr (Or.inl rfl) }
  right :=
    { printed := printed_entryOf (by decide) (by decide)
      noNewline := noNewline_entryOf (by decide) (by decide)
      noDelimiter := noDelimiter_entryOf (by decide)
      named := Or.inr (Or.inr (Or.inr rfl)) }

/-- Two entries that differ in level, tag and message make two lines, and in the other order
another text. -/
theorem splitsBack_oneLine_twice :
    lineCount ((logText .atEpoch strings [entryOf .info "app".toList "started [ok]: 1".toList,
      entryOf .error "net]".toList "".toList]).getD []) = 2 ∧
    logText .atEpoch strings [entryOf .info "app".toList "started [ok]: 1".toList,
        entryOf .error "net]".toList "".toList] ≠
      logText .atEpoch strings [entryOf .error "net]".toList "".toList,
        entryOf .info "app".toList "started [ok]: 1".toList] := by
  have hone : ∀ entry ∈ [entryOf .info "app".toList "started [ok]: 1".toList,
      entryOf .error "net]".toList "".toList], OneLine strings entry := by
    intro entry hentry
    rcases List.mem_pair.mp hentry with rfl | rfl
    · exact oneLine_entryOf.1
    · exact oneLine_entryOf.2
  have hsplits := splitsBack_oneLine plainThreadIds_atEpoch strings strings
  refine ⟨?_, fun heq => ?_⟩
  · obtain ⟨text, htext, hcount⟩ := hsplits.1 _ hone
    rw [htext]
    exact hcount
  · have hfields := hsplits.2 _ _ hone (fun entry hentry =>
      hone entry (List.mem_pair.mpr (List.mem_pair.mp hentry).symm)) heq
    exact absurd hfields (by decide)

/-- **Nothing is escaped**: a message can forge a record, a tag can end early, and levels
without a name are alike. -/
theorem not_splitsBack :
    ¬ SplitsBack .atEpoch strings strings Printed ∧
      ¬ SplitsBack .atEpoch strings strings (fun memory entry =>
        Printed memory entry ∧ NoNewline memory entry) ∧
      ¬ SplitsBack .atEpoch strings strings (fun memory entry =>
        Printed memory entry ∧ NoNewline memory entry ∧ NoDelimiter memory entry) := by
  refine ⟨fun h => ?_, fun h => ?_, fun h => ?_⟩
  · have hsame := h.2
      [entryOf .info "app".toList "a\n[INFO] 1970-01-01 00:00:00.000 [7, 1] [app]: b".toList]
      [entryOf .info "app".toList "a".toList, entryOf .info "app".toList "b".toList]
      (by simpa using printed_entryOf (by decide) (by decide))
      (by simpa using ⟨printed_entryOf (by decide) (by decide),
        printed_entryOf (by decide) (by decide)⟩)
      (by decide +kernel)
    exact absurd (congrArg List.length hsame) (by decide)
  · have hsame := h.2 [entryOf .info "a".toList "b]: c".toList]
      [entryOf .info "a]: b".toList "c".toList]
      (by simpa using ⟨printed_entryOf (by decide) (by decide),
        noNewline_entryOf (by decide) (by decide)⟩)
      (by simpa using ⟨printed_entryOf (by decide) (by decide),
        noNewline_entryOf (by decide) (by decide)⟩)
      (by decide +kernel)
    exact absurd hsame (by decide +kernel)
  · have hkept : ∀ level, Printed strings (entryOf level "a".toList "b".toList) ∧
        NoNewline strings (entryOf level "a".toList "b".toList) ∧
        NoDelimiter strings (entryOf level "a".toList "b".toList) := by
      intro level
      exact ⟨printed_entryOf (by decide) (by decide), noNewline_entryOf (by decide) (by decide),
        noDelimiter_entryOf (by decide)⟩
    have hsame := h.2 [entryOf ⟨4⟩ "a".toList "b".toList] [entryOf ⟨5⟩ "a".toList "b".toList]
      (by simpa using hkept _) (by simpa using hkept _) (by decide +kernel)
    exact absurd hsame (by decide +kernel)

end SpeckitLog

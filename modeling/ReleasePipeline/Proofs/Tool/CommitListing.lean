import ReleasePipeline.Proofs.Files.Content
import ReleasePipeline.Proofs.Text.Search
import ReleasePipeline.Proofs.Text.Trimmed
import ReleasePipeline.Text.Digit
import ReleasePipeline.Tool.Git

/-! A log shows the hashes and the messages of its commits. Blanks at the ends of the messages are lost,
and carriage returns are read as line feeds. -/
namespace ReleasePipeline.Git

/-- A commit of a repository: its hash in hexadecimal digits, and its message, in which the mark after
a commit does not stand. -/
structure LogEntry where
  sha : String
  message : String
  sha_ne : sha ≠ "" := by decide
  sha_hex : (sha.toList.all fun c => (Text.hexValue? c).isSome) = true := by decide
  message_plain : recordMark ∉ message.toList := by decide

/-- The hash, a mark and the message. -/
def LogEntry.record (e : LogEntry) : List Char := e.sha.toList ++ fieldMark :: e.message.toList

/-- The entry in a log, with the other mark and a line feed behind it. -/
def LogEntry.written (e : LogEntry) : List Char := e.record ++ [recordMark, '\n']

/-- The log of entries. -/
def logText (entries : List LogEntry) : String :=
  String.ofList (entries.flatMap LogEntry.written)

variable {c : Char} {cs feeds : List Char}

theorem bounds_of_hexValue? (h : (Text.hexValue? c).isSome = true) :
    48 ≤ c.toNat ∧ c.toNat ≤ 102 := by
  rw [Text.hexValue?] at h
  simp only [Bool.and_eq_true, decide_eq_true_eq, Char.le_def, UInt32.le_iff_toNat_le] at h
  split at h
  · rename_i hdigit
    change 48 ≤ c.toNat ∧ c.toNat ≤ 57 at hdigit
    omega
  · split at h
    · rename_i hlower
      change 97 ≤ c.toNat ∧ c.toNat ≤ 102 at hlower
      omega
    · split at h
      · rename_i hupper
        change 65 ≤ c.toNat ∧ c.toNat ≤ 70 at hupper
        omega
      · cases h

theorem isBlank_of_hexValue? (h : (Text.hexValue? c).isSome = true) : Text.isBlank c = false := by
  have hbounds := bounds_of_hexValue? h
  simp only [Text.isBlank, Bool.or_eq_false_iff, Bool.and_eq_false_iff, decide_eq_false_iff_not,
    beq_eq_false_iff_ne]
  omega

namespace LogEntry

variable (e : LogEntry)

theorem ne_of_mem_sha {c d : Char} (hc : c ∈ e.sha.toList) (hd : Text.isBlank d = true) : c ≠ d := by
  rintro rfl
  rw [isBlank_of_hexValue? (List.all_eq_true.mp e.sha_hex c hc)] at hd
  cases hd

/-- No record mark stands in a record. -/
theorem recordMark_notMem : recordMark ∉ e.record := by
  intro hmem
  rcases List.mem_append.mp hmem with hsha | hrest
  · exact e.ne_of_mem_sha hsha rfl rfl
  · rcases List.mem_cons.mp hrest with hmark | hmessage
    · cases hmark
    · exact e.message_plain hmessage

/-- The line feeds around a record are taken off, and at most some of those at the end of the message. -/
theorem stripFeeds_record (hfeeds : ∀ c ∈ feeds, c = '\n') : stripFeeds (feeds ++ e.record) =
    e.sha.toList ++ fieldMark :: Text.dropEndWhile (· = '\n') e.message.toList := by
  have hfront : e.record.dropWhile (· = '\n') = e.record := by
    obtain ⟨c, rest, hsha⟩ := List.exists_cons_of_ne_nil (l := e.sha.toList) (by simpa using e.sha_ne)
    have hc : c ≠ '\n' := e.ne_of_mem_sha (by simp [hsha]) rfl
    rw [record, hsha, List.cons_append, List.dropWhile_cons_of_neg (by simpa using hc)]
  rw [stripFeeds, List.dropWhile_append_of_pos (by simpa using hfeeds), hfront, record]
  exact Text.dropEndWhile_append rfl _ _

/-- A record is read as its hash and its message without the blanks at its ends. -/
theorem commitOf_record (hfeeds : ∀ c ∈ feeds, c = '\n') :
    commitOf (stripFeeds (feeds ++ e.record)) = (e.sha, Text.strip e.message) := by
  have hsha : ∀ c ∈ e.sha.toList, decide (c ≠ fieldMark) = true := by
    intro c hc
    exact decide_eq_true (e.ne_of_mem_sha hc rfl)
  have hmark : decide (fieldMark ≠ fieldMark) = false := rfl
  have hstrip : Text.strip e.sha = e.sha := by
    have hplain : ∀ c ∈ e.sha.toList, Text.isBlank c = false := fun c hc =>
      isBlank_of_hexValue? (List.all_eq_true.mp e.sha_hex c hc)
    rw [Text.strip, Text.stripChars_eq_self hplain, String.ofList_toList]
  have hfeed : ∀ c, decide (c = '\n') = true → Text.isBlank c = true := by
    intro c hc
    rw [of_decide_eq_true hc]
    rfl
  have hspan := Text.span_append_cons hsha hmark (Text.dropEndWhile (· = '\n') e.message.toList)
  rw [e.stripFeeds_record hfeeds, commitOf, hspan.1, hspan.2, String.ofList_toList, hstrip]
  rw [List.drop_one, List.tail_cons, Text.strip, Text.strip, String.toList_ofList,
    Text.stripChars_dropEndWhile hfeed]

/-- The entry as it is read: line endings of the message are line feeds. -/
def unified (e : LogEntry) : LogEntry where
  sha := e.sha
  message := Text.unified e.message
  sha_ne := e.sha_ne
  sha_hex := e.sha_hex
  message_plain := fun h => e.message_plain (Text.mem_of_mem_unified (by decide) h)

/-- What is read of an entry is the entry as it is read. -/
theorem unifyNewlines_written (rest : List Char) :
    Text.unifyNewlines (e.written ++ rest) = e.unified.written ++ Text.unifyNewlines rest := by
  have hsha : '\r' ∉ e.sha.toList := fun h => e.ne_of_mem_sha h rfl rfl
  have hwritten : e.written ++ rest =
      e.sha.toList ++ fieldMark :: (e.message.toList ++ recordMark :: '\n' :: rest) := by
    simp [written, record]
  rw [hwritten, Text.unifyNewlines_append_mark (by decide), Text.unifyNewlines_eq_self hsha,
    Text.unifyNewlines_append_mark (by decide), Text.unifyNewlines_cons (by decide)]
  simp [written, record, unified, Text.unified]

end LogEntry

theorem unified_logText (entries : List LogEntry) :
    Text.unified (logText entries) = logText (entries.map LogEntry.unified) := by
  rw [Text.unified, logText, logText, String.toList_ofList,
    Text.unifyNewlines_flatMap LogEntry.unifyNewlines_written]

/-- The entries of a log are read one by one. The first one stands behind no line feed, and each of the
others behind the one of the entry before. -/
theorem commitsOf_written (entries : List LogEntry) {feeds : List Char}
    (hfeeds : ∀ c ∈ feeds, c = '\n') :
    commitsOf (String.ofList (feeds ++ entries.flatMap LogEntry.written)) =
      entries.map fun e => (e.sha, Text.strip e.message) := by
  have hmark : ∀ {feeds : List Char}, (∀ c ∈ feeds, c = '\n') → recordMark ∉ feeds := by
    intro feeds hfeeds hmem
    cases hfeeds recordMark hmem
  induction entries generalizing feeds with
  | nil =>
    have hnothing : stripFeeds feeds = [] := by
      have hfeeds' : ∀ c ∈ feeds, decide (c = '\n') = true := by simpa using hfeeds
      rw [stripFeeds, List.dropWhile_eq_nil_iff.mpr hfeeds']
      rfl
    rw [commitsOf, String.toList_ofList, List.flatMap_nil, List.append_nil,
      Text.splitChars_eq_singleton (hmark hfeeds), List.map_singleton, hnothing]
    rfl
  | cons e entries ih =>
    have hplain : recordMark ∉ feeds ++ e.record := by
      intro hmem
      rcases List.mem_append.mp hmem with hfeed | hrecord
      · exact hmark hfeeds hfeed
      · exact e.recordMark_notMem hrecord
    have hsplit : feeds ++ (e :: entries).flatMap LogEntry.written =
        (feeds ++ e.record) ++ recordMark :: (['\n'] ++ entries.flatMap LogEntry.written) := by
      simp [LogEntry.written]
    have hnonempty : (!(stripFeeds (feeds ++ e.record)).isEmpty) = true := by
      rw [e.stripFeeds_record hfeeds]
      simp
    have hfeed : ∀ c ∈ ['\n'], c = '\n' := by simp
    have hrest := ih hfeed
    rw [commitsOf, String.toList_ofList] at hrest ⊢
    rw [hsplit, Text.splitChars_append_cons hplain, List.map_cons, List.filter_cons,
      if_pos hnonempty, List.map_cons, e.commitOf_record hfeeds, hrest, List.map_cons]

/-- A log is read as the hashes and the messages of its entries in their order, without the blanks at
the ends of the messages. -/
theorem commitsOf_logText (entries : List LogEntry) :
    commitsOf (logText entries) = entries.map fun e => (e.sha, Text.strip e.message) := by
  have hnone : ∀ c ∈ ([] : List Char), c = '\n' := List.forall_mem_nil _
  have hwritten := commitsOf_written entries hnone
  rwa [List.nil_append] at hwritten

/-- The log is read after its line endings became line feeds. -/
theorem commitsOf_unified_logText (entries : List LogEntry) :
    commitsOf (Text.unified (logText entries)) =
      entries.map fun e => (e.sha, Text.strip (Text.unified e.message)) := by
  rw [unified_logText, commitsOf_logText, List.map_map]
  rfl

end ReleasePipeline.Git

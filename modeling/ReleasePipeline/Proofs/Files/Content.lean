import ReleasePipeline.Proofs.Files.Tree
import ReleasePipeline.Proofs.Text.Breaking

/-! A file that gets another content: all paths lead where they led, and only what is read through
this file changes. -/
namespace ReleasePipeline

/-- The text with a line feed at the end of each line. -/
def Text.unified (text : String) : String := String.ofList (unifyNewlines text.toList)

theorem Text.return_not_mem_unified (text : String) : '\r' ∉ (unified text).toList := by
  rw [unified, String.toList_ofList]
  exact return_not_mem_unifyNewlines text.toList

theorem Text.unified_eq_self {text : String} (h : '\r' ∉ text.toList) : unified text = text := by
  rw [unified, unifyNewlines_eq_self h, String.ofList_toList]

theorem Text.mem_of_mem_unified {c : Char} {text : String} (hc : c ≠ '\n')
    (h : c ∈ (unified text).toList) : c ∈ text.toList := by
  rw [unified, String.toList_ofList] at h
  exact mem_of_mem_unifyNewlines hc h

theorem Text.unified_ne_empty {text : String} (h : text ≠ "") : unified text ≠ "" := by
  have hchars : text.toList ≠ [] := by simpa using h
  simpa [unified] using unifyNewlines_ne_nil hchars

theorem Text.toUTF8_inj {text text' : String} (h : text.toUTF8 = text'.toUTF8) : text = text' := by
  have hdecoded := congrArg decodeUtf8 h
  rw [decodeUtf8_toUTF8, decodeUtf8_toUTF8] at hdecoded
  exact Except.ok.inj hdecoded

theorem textOfBytes_eq_unified (text : String) : textOfBytes text.toUTF8 = .ok (Text.unified text) := by
  rw [textOfBytes, bind_eq_ok]
  exact ⟨text, Text.decodeUtf8_toUTF8 text, rfl⟩

namespace FileTree

variable {t t' : FileTree} {here start place other : Place} {names : List String} {e : Entry}
  {p : Path} {old content : ByteArray}

theorem look_eq_ok_iff : t.look here p = .ok e ↔
    ∃ place, t.place here p = .ok place ∧ t.entry? place = some e := by
  rw [look, bind_eq_ok]
  refine exists_congr fun place => and_congr_right fun _ => ?_
  cases t.entry? place with
  | none => simp [throw, throwThe, MonadExceptOf.throw]
  | some e' =>
    exact ⟨fun h => congrArg some (Except.ok.inj h), fun h => congrArg Except.ok (Option.some.inj h)⟩

theorem look_congr (hplace : t'.place here p = t.place here p)
    (h : ∀ place, t.place here p = .ok place → t'.entry? place = t.entry? place) :
    t'.look here p = t.look here p := by
  rw [look, look, hplace]
  cases hp : t.place here p with
  | error e => rfl
  | ok place => simp only [bind, Except.bind, h place hp]

theorem exists?_of_look (h : t.look here p = .ok e) : t.exists? here p = .ok true := by
  rw [exists?, look?, h]
  rfl

theorem read_eq_ok_iff : t.read here p = .ok content ↔ t.look here p = .ok (.file content) := by
  rw [read, bind_eq_ok]
  constructor
  · rintro ⟨e, he, hread⟩
    cases e with
    | file content' =>
      cases hread
      exact he
    | directory => cases hread
  · exact fun h => ⟨_, h, rfl⟩

theorem ne_nil_of_file (hfile : t.entry? place = some (.file content)) : place ≠ [] := by
  rintro rfl
  cases hfile

theorem follow_insert_file (hfile : t.entry? place = some (.file old)) :
    (t.insert place (.file content)).follow start names = t.follow start names := by
  induction names generalizing start with
  | nil => rfl
  | cons n names ih =>
    rw [follow, follow]
    by_cases hstart : start = place
    · rw [hstart, entry?_insert_self (ne_nil_of_file hfile), hfile]
    · rw [entry?_insert_of_ne hstart]
      cases t.entry? start with
      | none => rfl
      | some e =>
        cases e with
        | file _ => rfl
        | directory => simp only [ih]

/-- Another content of a file leaves all paths where they lead. -/
theorem place_insert_file (hfile : t.entry? place = some (.file old)) :
    (t.insert place (.file content)).place here p = t.place here p := by
  rw [FileTree.place, FileTree.place, follow_insert_file hfile]

end FileTree

end ReleasePipeline

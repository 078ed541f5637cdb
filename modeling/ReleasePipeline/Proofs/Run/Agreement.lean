import ReleasePipeline.Proofs.Run.Effects
import ReleasePipeline.Proofs.Version.Successor

/-! Two runs of one action that end alike. What is proved of them here serves for worlds that differ in
the tags of other channels: no action that leaves the tags alone can tell them apart. -/
namespace ReleasePipeline

variable {α β γ δ : Type}

namespace Action

/-- How an action ends: with a result, or with a failure. -/
def ending (x : Action α) (w : World) : Except Failure α :=
  match x w with
  | .ok a _ => .ok a
  | .error e _ => .error e

/-- From worlds in `P` both actions give results that are with their worlds in `Q`, or both fail in one
way, in worlds in `E`. -/
def Agrees (P : World → World → Prop) (x : Action α) (y : Action β)
    (Q : α → β → World → World → Prop) (E : World → World → Prop) : Prop :=
  ∀ w v, P w v → match x w, y v with
    | .ok a w', .ok b v' => Q a b w' v'
    | .error e w', .error e' v' => e = e' ∧ E w' v'
    | _, _ => False

section Agrees

variable {P E : World → World → Prop} {Q : α → β → World → World → Prop} {x : Action α}
  {y : Action β}

theorem agrees_pure {a : α} {b : β} (h : ∀ w v, P w v → Q a b w v) :
    Agrees P (pure a) (pure b) Q E := h

theorem agrees_throw (e : Failure) (h : ∀ w v, P w v → E w v) :
    Agrees P (throw e : Action α) (throw e : Action β) Q E := fun w v hP => ⟨rfl, h w v hP⟩

theorem agrees_cases (h : Agrees P x y Q E) {w v : World} (hP : P w v) :
    (∃ a b w' v', x w = .ok a w' ∧ y v = .ok b v' ∧ Q a b w' v') ∨
      ∃ e w' v', x w = .error e w' ∧ y v = .error e v' ∧ E w' v' := by
  have h := h w v hP
  cases hxw : x w with
  | ok a w' =>
    cases hyv : y v with
    | ok b v' =>
      rw [hxw, hyv] at h
      exact Or.inl ⟨a, b, w', v', rfl, rfl, h⟩
    | error e v' =>
      rw [hxw, hyv] at h
      exact h.elim
  | error e w' =>
    cases hyv : y v with
    | ok b v' =>
      rw [hxw, hyv] at h
      exact h.elim
    | error e' v' =>
      rw [hxw, hyv] at h
      obtain ⟨rfl, h⟩ := h
      exact Or.inr ⟨e, w', v', rfl, rfl, h⟩

theorem agrees_bind {f : α → Action γ} {g : β → Action δ} {T : γ → δ → World → World → Prop}
    (hx : Agrees P x y Q E) (hf : ∀ a b, Agrees (Q a b) (f a) (g b) T E) :
    Agrees P (x >>= f) (y >>= g) T E := by
  intro w v hP
  rw [bind_apply, bind_apply]
  rcases agrees_cases hx hP with ⟨a, b, w', v', hxw, hyv, hQ⟩ | ⟨e, w', v', hxw, hyv, hE⟩
  · rw [hxw, hyv]
    exact hf a b w' v' hQ
  · rw [hxw, hyv]
    exact ⟨rfl, hE⟩

theorem agrees_get_bind {f : World → Action α} {g : World → Action β}
    (h : ∀ w v, P w v → Agrees P (f w) (g v) Q E) : Agrees P (get >>= f) (get >>= g) Q E :=
  fun w v hP => h w v hP w v hP

theorem agrees_mono {P' E' : World → World → Prop} {Q' : α → β → World → World → Prop}
    (h : Agrees P x y Q E) (hP : ∀ w v, P' w v → P w v) (hQ : ∀ a b w v, Q a b w v → Q' a b w v)
    (hE : ∀ w v, E w v → E' w v) : Agrees P' x y Q' E' := by
  intro w v hw
  rcases agrees_cases h (hP w v hw) with ⟨a, b, w', v', hxw, hyv, hq⟩ | ⟨e, w', v', hxw, hyv, he⟩
  · rw [hxw, hyv]
    exact hQ a b w' v' hq
  · rw [hxw, hyv]
    exact ⟨rfl, hE w' v' he⟩

theorem ending_of_agrees {R : World → World → Prop} {y : Action α} {w v : World}
    (h : Agrees P x y (fun a b w v => a = b ∧ R w v) R) (hP : P w v) :
    y.ending v = x.ending w ∧ R (x.after w) (y.after v) := by
  rcases agrees_cases h hP with ⟨a, b, w', v', hxw, hyv, rfl, hR⟩ | ⟨e, w', v', hxw, hyv, hR⟩
  · rw [ending, ending, after_of_ok hxw, after_of_ok hyv, hxw, hyv]
    exact ⟨rfl, hR⟩
  · rw [ending, ending, after_of_error hxw, after_of_error hyv, hxw, hyv]
    exact ⟨rfl, hR⟩

theorem agrees_of_fact {p : Prop} (h : p → Agrees P x y Q E) :
    Agrees (fun w v => p ∧ P w v) x y Q E := fun w v hP => h hP.1 w v hP.2

end Agrees

/-- From worlds in `R` the action gives one result or fails in one way, and the worlds stay in `R`. -/
def Blind (R : World → World → Prop) (x : Action α) : Prop :=
  Agrees R x x (fun a b w v => a = b ∧ R w v) R

section Blind

variable {R : World → World → Prop} {x : Action α} {f : α → Action β}

theorem blind_pure (a : α) : Blind R (pure a : Action α) := agrees_pure fun _ _ h => ⟨rfl, h⟩

theorem blind_throw (e : Failure) : Blind R (throw e : Action α) := agrees_throw e fun _ _ h => h

theorem agrees_bind_same {f g : α → Action β} {P E : World → World → Prop}
    {Q : α → World → World → Prop} {T : β → β → World → World → Prop} {y : Action α}
    (hx : Agrees P x y (fun a b w v => a = b ∧ Q a w v) E)
    (hf : ∀ a, Agrees (Q a) (f a) (g a) T E) : Agrees P (x >>= f) (y >>= g) T E := by
  refine agrees_bind hx fun a b w v h => ?_
  obtain ⟨rfl, h⟩ := h
  exact hf a w v h

theorem blind_throw_bind (e : Failure) (f : α → Action β) : Blind R (throw e >>= f) :=
  fun _ _ h => ⟨rfl, h⟩

theorem blind_bind (hx : Blind R x) (hf : ∀ a, Blind R (f a)) : Blind R (x >>= f) :=
  agrees_bind_same hx hf

theorem blind_ofExcept (r : Except Failure α) : Blind R (ofExcept r) := by
  cases r with
  | ok a => exact blind_pure a
  | error e => exact blind_throw e

theorem blind_mapM {g : γ → Action β} (h : ∀ c, Blind R (g c)) (cs : List γ) :
    Blind R (cs.mapM g) := by
  induction cs with
  | nil => exact blind_pure []
  | cons c cs ih =>
    rw [List.mapM_cons]
    exact blind_bind (h c) fun b => blind_bind ih fun bs => blind_pure (b :: bs)

theorem blind_forM {g : γ → Action PUnit} (h : ∀ c, Blind R (g c)) (cs : List γ) :
    Blind R (cs.forM g) := by
  induction cs with
  | nil => exact blind_pure _
  | cons c cs ih => exact blind_bind (h c) fun _ => ih

end Blind

end Action

/-- What commands answer, by their words and the events so far. -/
abbrev Answers : Type := List String → List Event → Answer

/-- The world with other answers and other tags. -/
def World.relisted (w : World) (answers : Answers) (tags : List Version) : World :=
  { w with answers, release := { w.release with tags } }

/-- The worlds are one but for their answers and for the tags of other channels. -/
inductive Alike (first second : Answers) (channel : Option String) : World → World → Prop
  | relisted {w : World} {tags : List Version} (answers : w.answers = first)
    (prerelease : w.release.prerelease = channel)
    (releases : Version.SameReleases channel w.release.tags tags) :
    Alike first second channel w (w.relisted second tags)

/-- The answers are the same except to the listing of the tags. -/
def OtherListing (first second : Answers) : Prop :=
  ∀ argv before, argv ≠ "git" :: Git.tagListing → second argv before = first argv before

variable {first second : Answers} {channel : Option String} {s : Settings}

namespace Action

theorem blind_get_bind {k : World → Action α}
    (hk : ∀ w tags, k (w.relisted second tags) = k w)
    (h : ∀ w, Blind (Alike first second channel) (k w)) :
    Blind (Alike first second channel) (get >>= k) := by
  refine agrees_get_bind fun w v hw => ?_
  cases hw with
  | relisted answers prerelease releases =>
    rw [hk]
    exact h w

theorem blind_release_bind {k : Release → Action α}
    (hk : ∀ (r : Release) tags, k { r with tags } = k r)
    (h : ∀ r, Blind (Alike first second channel) (k r)) :
    Blind (Alike first second channel) (release >>= k) :=
  blind_get_bind (fun w tags => hk w.release tags) fun w => h w.release

/-- The action changes the release without a look at its tags, which stay, and not its channel. -/
theorem blind_changeRelease {f : Release → Release}
    (hf : ∀ (r : Release) tags, f { r with tags } = { f r with tags })
    (hkept : ∀ r, (f r).prerelease = r.prerelease ∧ (f r).tags = r.tags) :
    Blind (Alike first second channel) (changeRelease f) := by
  intro w v hw
  cases hw with
  | @relisted tags answers prerelease releases =>
    obtain ⟨hprerelease, htags⟩ := hkept w.release
    have hafter : { w.relisted second tags with release := f { w.release with tags } } =
        World.relisted { w with release := f w.release } second tags := by
      rw [hf]
      rfl
    refine ⟨rfl, ?_⟩
    change Alike first second channel { w with release := f w.release }
      { w.relisted second tags with release := f { w.release with tags } }
    rw [hafter]
    exact .relisted answers (hprerelease.trans prerelease) (htags ▸ releases)

theorem blind_log (level : Level) (text : String) :
    Blind (Alike first second channel) (log level text) := by
  intro w v hw
  cases hw with
  | relisted answers prerelease releases =>
    exact ⟨rfl, .relisted (w := w.recorded (.message level text)) answers prerelease releases⟩

theorem blind_readText (p : Path) : Blind (Alike first second channel) (readText p) :=
  blind_get_bind (fun _ _ => rfl) fun _ =>
    blind_bind (blind_ofExcept _) fun _ => blind_ofExcept _

theorem blind_pathExists (p : Path) : Blind (Alike first second channel) (pathExists p) :=
  blind_get_bind (fun _ _ => rfl) fun _ => blind_ofExcept _

theorem blind_fillIn (text : String) : Blind (Alike first second channel) (Options.fillIn text) :=
  blind_release_bind (fun _ _ => rfl) fun _ => blind_ofExcept _

theorem blind_nextText : Blind (Alike first second channel) Options.nextText :=
  blind_release_bind (fun _ _ => rfl) fun _ => blind_ofExcept _

theorem alike_files {w v : World} (h : Alike first second channel w v) (files : FileTree) :
    Alike first second channel { w with files } { v with files } := by
  cases h with
  | relisted answers prerelease releases =>
    exact .relisted (w := { w with files }) answers prerelease releases

theorem writeText_apply (p : Path) (text : String) (w : World) : writeText p text w =
    match w.files.write w.here p text.toUTF8 with
    | .ok files => .ok () { w with files }
    | .error e => .error (.file e) w := by
  have h : writeText p text w = (do
      let files ← ofExcept ((w.files.write w.here p text.toUTF8).mapError Failure.file)
      set { w with files } : Action Unit) w := rfl
  rw [h]
  cases w.files.write w.here p text.toUTF8 <;> rfl

theorem blind_writeText (p : Path) (text : String) :
    Blind (Alike first second channel) (writeText p text) := by
  intro w v h
  have hsame : v.files.write v.here p text.toUTF8 = w.files.write w.here p text.toUTF8 := by
    cases h with
    | relisted => rfl
  rw [writeText_apply, writeText_apply, hsame]
  cases w.files.write w.here p text.toUTF8 with
  | ok files => exact ⟨rfl, alike_files h files⟩
  | error e => exact ⟨rfl, h⟩

theorem makeDirectories_apply (p : Path) (w : World) : makeDirectories p w =
    match (w.files.makeDirectories w.here p.names.length p).2 with
    | .ok _ => .ok () { w with files := (w.files.makeDirectories w.here p.names.length p).1 }
    | .error e =>
      .error (.file e) { w with files := (w.files.makeDirectories w.here p.names.length p).1 } := by
  have h : makeDirectories p w =
      ofExcept ((w.files.makeDirectories w.here p.names.length p).2.mapError Failure.file)
        { w with files := (w.files.makeDirectories w.here p.names.length p).1 } := rfl
  rw [h]
  cases (w.files.makeDirectories w.here p.names.length p).2 <;> rfl

theorem blind_makeDirectories (p : Path) :
    Blind (Alike first second channel) (makeDirectories p) := by
  intro w v h
  have hsame : v.files.makeDirectories v.here p.names.length p =
      w.files.makeDirectories w.here p.names.length p := by
    cases h with
    | relisted => rfl
  rw [makeDirectories_apply, makeDirectories_apply, hsame]
  cases (w.files.makeDirectories w.here p.names.length p).2 with
  | ok _ => exact ⟨rfl, alike_files h _⟩
  | error e => exact ⟨rfl, alike_files h _⟩

/-- A command that writes the same files leaves the worlds alike. -/
theorem alike_executed {w v : World} {c : Command} (h : Alike first second channel w v)
    (hwrites : (v.answers c.argv (v.recorded (.run c)).events).writes =
      (w.answers c.argv (w.recorded (.run c)).events).writes) :
    Alike first second channel (w.executed c) (v.executed c) := by
  cases h with
  | @relisted tags answers prerelease releases =>
    have hworld : (w.relisted second tags).executed c = (w.executed c).relisted second tags :=
      congrArg (fun writes => World.relisted { w.recorded (.run c) with
        files := w.files.install w.here writes } second tags) hwrites
    rw [hworld]
    exact .relisted (w := w.executed c) answers prerelease releases

section Commands

variable (hother : OtherListing first second)

include hother

theorem blind_execute {c : Command} (hc : c.argv ≠ "git" :: Git.tagListing) :
    Blind (Alike first second channel) (execute c) := by
  intro w v h
  have hsame : v.answers c.argv (v.recorded (.run c)).events =
      w.answers c.argv (w.recorded (.run c)).events := by
    cases h with
    | relisted answers =>
      rw [answers]
      exact hother c.argv _ hc
  have hexecuted := alike_executed h (congrArg Answer.writes hsame)
  rw [execute_apply, execute_apply, hsame]
  cases (w.answers c.argv (w.recorded (.run c)).events).fault with
  | none => exact ⟨rfl, hexecuted⟩
  | some e => cases e <;> exact ⟨rfl, hexecuted⟩

theorem blind_run {effect : Effect} {check : Bool} {c : Command}
    (hc : c.argv ≠ "git" :: Git.tagListing) :
    Blind (Alike first second channel) (run s effect check c) := by
  refine blind_bind (blind_log _ _) fun _ => ?_
  split
  · exact blind_pure _
  · refine blind_bind (blind_execute hother hc) fun answer => ?_
    by_cases hfail : (check && decide (answer.code ≠ 0)) = true
    · simp only [if_pos hfail]
      exact blind_throw _
    · simp only [if_neg hfail]
      exact blind_pure _

end Commands

end Action

end ReleasePipeline

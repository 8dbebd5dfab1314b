import Graphed.Checkpoint.Resumable

/-!
# Resumable plans mirror plain ones

A resumable run mirrors the plain run: task by task it gives what the plain process gives, whether a
blob is served or the process is run. While nothing else touches the store, each task whose process
gives a result is filed when its turn is over.
-/

namespace Graphed

open Effects

/-! ### Ends that match -/

section Matches

variable {α γ δ ε : Type} {rel : α → γ → Prop}

/-- Both return, and what they return is related; or both raise the same. -/
def Matches (rel : α → γ → Prop) : Except ε α → Except ε γ → Prop
  | .ok a, .ok c => rel a c
  | .error e, .error e' => e = e'
  | _, _ => False

theorem matches_eq {x y : Except ε α} : Matches (· = ·) x y ↔ x = y := by
  cases x <;> cases y <;> simp [Matches]

theorem Matches.bind {o : Except ε α} {x : Except ε γ} {f : α → Except ε δ} {g : γ → Except ε β}
    {rel' : δ → β → Prop} (h : Matches rel o x)
    (hf : ∀ a c, rel a c → Matches rel' (f a) (g c)) : Matches rel' (o >>= f) (x >>= g) := by
  cases o <;> cases x
  · exact h
  · exact h.elim
  · exact h.elim
  · exact hf _ _ h

theorem Matches.map {o : Except ε α} {x : Except ε γ} {f : α → δ} {g : γ → β}
    {rel' : δ → β → Prop} (h : Matches rel o x) (hf : ∀ a c, rel a c → rel' (f a) (g c)) :
    Matches rel' (o.map f) (x.map g) := by
  cases o <;> cases x
  · exact h
  · exact h.elim
  · exact h.elim
  · exact hf _ _ h

end Matches

/-! ### What is filed -/

/-- Every blob hashes to its name. -/
def Disk.Sound (sha : BlobData → String) (d : Disk) : Prop :=
  ∀ digest data, d.objects digest = some data → sha data = digest

/-- The task is recorded, and its blob is there. -/
def Disk.Has (d : Disk) (taskId : String) : Prop :=
  ∃ e ∈ d.entries, e.taskId = taskId ∧ e.stage ≠ "environment" ∧ d.hasBlob e.blob = true

/-- Since `d₀`, the records of its tasks were kept, and these tasks are filed. -/
structure Filed (sha : BlobData → String) (node : Option String) (d₀ : Disk)
    (ids : String → Prop) (d : Disk) : Prop where
  sound : d.Sound sha
  ended : (d.log (journalName node)).tail = .ended
  kept : ∀ e ∈ d₀.entries, e.stage ≠ "environment" → e ∈ d.entries
  has : ∀ id, ids id → d.Has id

section Filed

variable {sha : BlobData → String} {node : Option String} {d₀ d : Disk} {ids ids' : String → Prop}

theorem Filed.mono (h : Filed sha node d₀ ids d) (hids : ∀ id, ids' id → ids id) :
    Filed sha node d₀ ids' d :=
  ⟨h.sound, h.ended, h.kept, fun id hid => h.has id (hids id hid)⟩

theorem Disk.log_put (data : BlobData) : (d.put sha data).2.log = d.log := by
  funext name
  unfold Disk.put
  split_ifs <;> rfl

theorem Disk.Sound.put (h : d.Sound sha) (data : BlobData) : (d.put sha data).2.Sound sha := by
  unfold Disk.put
  split_ifs
  · intro digest data' hdata
    unfold Disk.setObject at hdata
    dsimp only at hdata
    split_ifs at hdata with hname
    · rw [hname, Option.some.inj hdata]
    · exact h digest data' hdata
  · exact h

theorem Disk.hasBlob_put {digest : String} (data : BlobData) (h : d.hasBlob digest = true) :
    (d.put sha data).2.hasBlob digest = true := by
  unfold Disk.put
  split_ifs
  · unfold Disk.hasBlob Disk.setObject at *
    dsimp only
    split_ifs
    · rfl
    · exact h
  · exact h

/-- A blob that was put is there. -/
theorem Disk.hasBlob_put_self (data : BlobData) :
    (d.put sha data).2.hasBlob (sha data) = true := by
  unfold Disk.put
  split_ifs with hwrite
  · simp [Disk.hasBlob, Disk.setObject]
  · rw [not_or, not_not] at hwrite
    unfold Disk.hasBlob
    obtain ⟨data', hdata, -⟩ := Option.map_eq_some_iff.mp hwrite.2
    rw [hdata]
    rfl

theorem Disk.Has.put {id : String} (h : d.Has id) (data : BlobData) :
    (d.put sha data).2.Has id := by
  obtain ⟨e, he, hid, hstage, hblob⟩ := h
  exact ⟨e, by rwa [Disk.entries_put], hid, hstage, Disk.hasBlob_put data hblob⟩

theorem Filed.put (h : Filed sha node d₀ ids d) (data : BlobData) :
    Filed sha node d₀ ids (d.put sha data).2 where
  sound := h.sound.put data
  ended := by rw [Disk.log_put]; exact h.ended
  kept := by rw [Disk.entries_put]; exact h.kept
  has id hid := (h.has id hid).put data

theorem Filed.get (h : Filed sha node d₀ ids d) (digest : String) :
    Filed sha node d₀ ids (d.get sha digest).2 := by
  have hsame : (d.get sha digest).2.log = d.log := by
    unfold Disk.get
    cases d.objects digest with
    | none => rfl
    | some data => dsimp only; split_ifs <;> rfl
  refine ⟨?_, ?_, ?_, ?_⟩
  · unfold Disk.Sound
    rw [Disk.objects_get]
    exact h.sound
  · rw [hsame]
    exact h.ended
  · rw [Disk.entries_get]
    exact h.kept
  · intro id hid
    obtain ⟨e, he, hrest⟩ := h.has id hid
    refine ⟨e, by rwa [Disk.entries_get], ?_⟩
    unfold Disk.hasBlob
    rw [Disk.objects_get]
    exact hrest

theorem Disk.mem_entries_record {name : String} {entry e : JournalEntry}
    (hended : (d.log name).tail = .ended) (he : e ∈ d.entries) :
    e ∈ (d.record name entry).entries := by
  obtain ⟨n, hn⟩ := Disk.mem_entries.mp he
  refine Disk.mem_entries.mpr ⟨n, ?_⟩
  rw [Disk.record, Disk.log_setJournal]
  split_ifs with hname
  · subst hname
    rw [(LogFile.entries_append hended).1]
    exact List.mem_append_left _ hn
  · exact hn

/-- A result that is recorded is filed. -/
theorem Filed.record (h : Filed sha node d₀ ids d) {entry : JournalEntry}
    (hstage : entry.stage ≠ "environment") (hblob : d.hasBlob entry.blob = true) :
    Filed sha node d₀ (fun id => ids id ∨ id = entry.taskId)
      (d.record (journalName node) entry) := by
  have hlog : (d.record (journalName node) entry).log (journalName node) =
      (d.log (journalName node)).append entry := by
    rw [Disk.record, Disk.log_setJournal, if_pos rfl]
  refine ⟨h.sound, ?_, ?_, ?_⟩
  · rw [hlog]
    exact (LogFile.entries_append h.ended).2
  · intro e he hne
    exact Disk.mem_entries_record h.ended (h.kept e he hne)
  · rintro id (hid | rfl)
    · obtain ⟨e, he, hrest⟩ := h.has id hid
      exact ⟨e, Disk.mem_entries_record h.ended he, hrest⟩
    · refine ⟨entry, Disk.mem_entries.mpr ⟨journalName node, ?_⟩, rfl, hstage, hblob⟩
      rw [hlog, (LogFile.entries_append h.ended).1]
      exact List.mem_append_right _ (List.mem_singleton_self entry)

end Filed

/-! ### Judging programs -/

/-- A store whose blobs are lost as `mv` says, if at all. -/
def driftWorld {ω β : Type} (sha : BlobData → String) (result : ω → Except Raised β)
    (mv : Disk → Loss → Disk → Prop) : World (StoreQuery ω) (StoreAnswer ω β) Loss Disk where
  answers := storeAnswers sha result
  moves := mv

/-- A query a worker makes: it writes its own journal. -/
def ByWorker {ω : Type} (node : Option String) : StoreQuery ω → Prop
  | .recordDone n _ => n = node
  | .recordDead _ => False
  | _ => True

/-- What holds of a store and its losses: `calm` says that there are none. -/
structure Setting where
  D : Digest
  node : Option String
  L : String → String → Prop
  mv : Disk → Loss → Disk → Prop
  calm : Prop
  losses : ∀ d m d', mv d m d' → lost D.hex d m d'
  still : calm → ∀ d m d', ¬ mv d m d'

variable {ω β α γ δ ε κ : Type}

/-- The records are truthful, and in a calm store something more is known. -/
def Sure (W : Setting) (X : Disk → Prop) (d : Disk) : Prop :=
  Truthful W.L d ∧ (W.calm → X d)

/-- The program mirrors an end: it ends alike, in a state `J` when it returns. -/
def Mirrors (W : Setting) (result : ω → Except Raised β) (I J : Disk → Prop)
    (p : StoreScript ω β α) (rel : α → γ → Prop) (x : Except Raised γ) : Prop :=
  Triple (driftWorld W.D.hex result W.mv) (fun _ q => Licit W.L q ∧ ByWorker W.node q)
    (Sure W I) p fun o d => Matches rel o x ∧ Truthful W.L d ∧
      (W.calm → ∀ a, o = .ok a → J d)

/-- It is in a state `J` also when it raises. -/
def Files (W : Setting) (result : ω → Except Raised β) (I J : Disk → Prop)
    (p : StoreScript ω β α) (rel : α → γ → Prop) (x : Except Raised γ) : Prop :=
  Triple (driftWorld W.D.hex result W.mv) (fun _ q => Licit W.L q ∧ ByWorker W.node q)
    (Sure W I) p fun o d => Matches rel o x ∧ Sure W J d

section Rules

variable {W : Setting} {result : ω → Except Raised β} {I J K : Disk → Prop}
  {p : StoreScript ω β α} {rel : α → γ → Prop} {x : Except Raised γ}

theorem sure_lasts : Lasts (driftWorld W.D.hex result W.mv) (Sure W I) := by
  intro d m d' h hmove
  exact ⟨h.1.lost (W.losses _ _ _ hmove), fun hcalm => absurd hmove (W.still hcalm _ _ _)⟩

theorem Sure.mono {d : Disk} (h : Sure W I d) (hIJ : ∀ d, I d → J d) : Sure W J d :=
  ⟨h.1, fun hcalm => hIJ d (h.2 hcalm)⟩

theorem mirrors_lasts {o : Except Raised α} {φ : Prop} :
    Lasts (driftWorld W.D.hex result W.mv) fun d => φ ∧ Truthful W.L d ∧
      (W.calm → ∀ a, o = .ok a → J d) := by
  rintro d m d' ⟨hφ, htruthful, hJ⟩ hmove
  exact ⟨hφ, htruthful.lost (W.losses _ _ _ hmove),
    fun hcalm => absurd hmove (W.still hcalm _ _ _)⟩

theorem files_lasts {φ : Prop} :
    Lasts (driftWorld W.D.hex result W.mv) fun d => φ ∧ Sure W J d :=
  fun d m d' h hmove =>
    ⟨h.1, (sure_lasts : Lasts (driftWorld W.D.hex result W.mv) _) d m d' h.2 hmove⟩

theorem Files.mirrors (h : Files W result I J p rel x) : Mirrors W result I J p rel x :=
  Triple.weaken h (fun _ hd => hd) fun _ _ ho => ⟨ho.1, ho.2.1, fun hcalm _ _ => ho.2.2 hcalm⟩

theorem Files.weaken {I' J' : Disk → Prop} {γ' : Type} {rel' : α → γ' → Prop}
    {x' : Except Raised γ'} (h : Files W result I J p rel x) (hI : ∀ d, I' d → I d)
    (hJ : ∀ d, J d → J' d) (hx : ∀ o, Matches rel o x → Matches rel' o x') :
    Files W result I' J' p rel' x' :=
  Triple.weaken h (fun _ hd => hd.mono hI) fun o _ ho => ⟨hx o ho.1, ho.2.mono hJ⟩

theorem Mirrors.weaken {I' J' : Disk → Prop} {γ' : Type} {rel' : α → γ' → Prop}
    {x' : Except Raised γ'} (h : Mirrors W result I J p rel x) (hI : ∀ d, I' d → I d)
    (hJ : ∀ d, J d → J' d) (hx : ∀ o, Matches rel o x → Matches rel' o x') :
    Mirrors W result I' J' p rel' x' :=
  Triple.weaken h (fun _ hd => hd.mono hI) fun o d ho =>
    ⟨hx o ho.1, ho.2.1, fun hcalm a ha => hJ d (ho.2.2 hcalm a ha)⟩

theorem files_ofExcept {y : Except Raised α} (h : Matches rel y x) :
    Files W result I I (Prog.ofExcept y) rel x :=
  triple_ofExcept files_lasts fun _ hd => ⟨h, hd⟩

theorem files_pure {a : α} {c : γ} (h : rel a c) :
    Files W result I I (pure a) rel (.ok c) :=
  triple_ret files_lasts fun _ hd => ⟨h, hd⟩

/-- The first program is judged, then the second; where the first raises, `J` must follow. -/
theorem files_bind {f : α → StoreScript ω β δ} {g : γ → Except Raised ε}
    {rel' : δ → ε → Prop} (hp : Files W result I K p rel x)
    (hf : ∀ a c, x = .ok c → rel a c → Files W result K J (f a) rel' (g c))
    (herr : ∀ e, x = .error e → ∀ d, K d → J d) :
    Files W result I J (p >>= f) rel' (x >>= g) := by
  refine triple_bind hp ?_ ?_
  · rintro a d ⟨hmatch, hd⟩
    cases x with
    | error e => exact hmatch.elim
    | ok c => exact hf a c rfl hmatch d hd
  · rintro e d ⟨hmatch, hd⟩
    cases x with
    | error e' => exact ⟨hmatch, hd.mono (herr e' rfl)⟩
    | ok c => exact hmatch.elim

/-- The second program only works on what the first gave. -/
theorem files_bind_same {f : α → StoreScript ω β δ} {rel' : δ → γ → Prop}
    (hp : Files W result I K p rel x)
    (hf : ∀ a c, x = .ok c → rel a c → Files W result K J (f a) rel' (.ok c))
    (herr : ∀ e, x = .error e → ∀ d, K d → J d) : Files W result I J (p >>= f) rel' x := by
  have hx : (x >>= fun c => .ok c) = x := by cases x <;> rfl
  have hbind := files_bind (g := fun c => .ok c) hp hf herr
  rwa [hx] at hbind

theorem mirrors_bind {r : α → γ → Prop} {f : α → StoreScript ω β δ} {g : γ → Except Raised ε}
    {rel : δ → ε → Prop} (hp : Mirrors W result I K p r x)
    (hf : ∀ a c, x = .ok c → r a c → Mirrors W result K J (f a) rel (g c)) :
    Mirrors W result I J (p >>= f) rel (x >>= g) := by
  refine triple_bind hp ?_ ?_
  · rintro a d ⟨hmatch, htruthful, hd⟩
    cases x with
    | error e => exact hmatch.elim
    | ok c => exact hf a c rfl hmatch d ⟨htruthful, fun hcalm => hd hcalm a rfl⟩
  · rintro e d ⟨hmatch, htruthful, -⟩
    cases x with
    | error e' => exact ⟨hmatch, htruthful, fun _ a ha => by cases ha⟩
    | ok c => exact hmatch.elim

/-- A query that is answered, and then a program. -/
theorem files_ask {q : StoreQuery ω} {f : StoreAnswer ω β q → StoreScript ω β α}
    {φ : StoreAnswer ω β q → Prop} {Y : StoreAnswer ω β q → Disk → Prop}
    (hlicit : Licit W.L q) (hworker : ByWorker W.node q)
    (hanswer : ∀ d a d', Truthful W.L d → (W.calm → I d) →
      storeAnswers W.D.hex result d q a d' → φ a ∧ (W.calm → Y a d'))
    (hf : ∀ a, φ a → Files W result (Y a) J (f a) rel x) :
    Files W result I J (Prog.query q >>= f) rel x := by
  refine triple_ask (S := fun a d => φ a ∧ Sure W (Y a) d) sure_lasts
    (fun _ _ => ⟨hlicit, hworker⟩) ?_ ?_
  · intro d a d' hd hanswers
    obtain ⟨hφ, hY⟩ := hanswer d a d' hd.1 hd.2 hanswers
    exact ⟨hφ, hd.1.answers hlicit hanswers, hY⟩
  · rintro a d ⟨hφ, hd⟩
    exact hf a hφ d hd

theorem files_attempt (h : Files W result I J p rel x) :
    Files W result I J p.attempt (Matches rel) (.ok x) :=
  triple_attempt h

end Rules

/-! ### One task -/

section Task

variable {W : Setting} {result : ω → Except Raised β} {d₀ : Disk} {ids : String → Prop}
  {stage : String} {t : KeyedTask}

/-- What is known of a tagged task: `x` is how its process ends, `enc` what is stored of it. -/
structure Tagged (W : Setting) (d₀ : Disk) (stage : String) (t : KeyedTask)
    (x : Except Raised γ) (enc : γ → BlobData) : Prop where
  held : t.blob ≠ "" → W.L t.taskId t.blob
  recorded : W.calm → t.blob ≠ "" →
    ∃ e ∈ d₀.entries, e.taskId = t.taskId ∧ e.stage ≠ "environment" ∧ e.blob = t.blob
  reads : ∀ blob, W.L t.taskId blob → ∃ c, x = .ok c ∧ blob = W.D.hex (enc c)
  writes : ∀ c, x = .ok c → W.L t.taskId (W.D.hex (enc c))
  staged : W.calm → stage ≠ "environment"

/-- A task more is filed, when its process gives a result. -/
def withTask (ids : String → Prop) (t : KeyedTask) (x : Except Raised γ) (id : String) : Prop :=
  ids id ∨ id = t.taskId ∧ ∃ c, x = .ok c

/-- A result is stored and then recorded. -/
theorem files_recorded {x : Except Raised γ} {enc : γ → BlobData} {beside : γ → κ} {c : γ}
    (ht : Tagged W d₀ stage t x enc) (hx : x = .ok c) :
    Files W result (Filed W.D.hex W.node d₀ ids) (Filed W.D.hex W.node d₀ (withTask ids t x)) (do
        let digest ← Prog.query (StoreQuery.put (enc c))
        Prog.query (StoreQuery.recordDone W.node
          ⟨t.taskId, partitionTag t.task.partition, digest, stage, []⟩)
        pure (enc c, some (beside c)) : StoreScript ω β (BlobData × Option κ))
      (fun out c => out.1 = enc c ∧ (out.2 = none ∨ out.2 = some (beside c))) (.ok c) := by
  refine files_ask (φ := fun digest => digest = W.D.hex (enc c))
    (Y := fun digest d => Filed W.D.hex W.node d₀ ids d ∧ d.hasBlob digest = true) trivial trivial
    ?_ ?_
  · intro d digest d' _ hd hanswer
    obtain ⟨hdigest, rfl⟩ : digest = (d.put W.D.hex (enc c)).1 ∧
      d' = (d.put W.D.hex (enc c)).2 := Prod.mk.inj hanswer
    rw [Disk.put_fst] at hdigest
    refine ⟨hdigest, fun hcalm => ⟨(hd hcalm).put _, ?_⟩⟩
    rw [hdigest]
    exact Disk.hasBlob_put_self _
  · rintro digest rfl
    refine files_ask (φ := fun _ => True)
      (Y := fun _ => Filed W.D.hex W.node d₀ (withTask ids t x)) (ht.writes c hx) rfl ?_ ?_
    · rintro d _ d' _ hd rfl
      refine ⟨trivial, fun hcalm => ?_⟩
      obtain ⟨hfiled, hblob⟩ := hd hcalm
      refine (hfiled.record (ht.staged hcalm) hblob).mono ?_
      rintro id (hid | ⟨rfl, -⟩)
      · exact Or.inl hid
      · exact Or.inr rfl
    · intro _ _
      exact files_pure ⟨rfl, Or.inr rfl⟩

/-- **A task served or run gives what its process gives**, and is filed. -/
theorem files_servedOrRun {x : Except Raised γ} {enc : γ → BlobData} {b : γ → κ}
    {run : StoreScript ω β (BlobData × κ)} (ht : Tagged W d₀ stage t x enc)
    (hrun : Files W result (Filed W.D.hex W.node d₀ ids) (Filed W.D.hex W.node d₀ ids) run
      (fun out c => out = (enc c, b c)) x) :
    Files W result (Filed W.D.hex W.node d₀ ids) (Filed W.D.hex W.node d₀ (withTask ids t x))
      (servedOrRun W.node stage t run)
      (fun out c => out.1 = enc c ∧ (out.2 = none ∨ out.2 = some (b c))) x := by
  have hnot : ∀ e, x = .error e → ∀ id, withTask ids t x id → ids id := by
    rintro e rfl id (hid | ⟨-, c, hc⟩)
    · exact hid
    · cases hc
  have hran := files_bind_same (f := fun out => do
      let digest ← Prog.query (StoreQuery.put out.1)
      Prog.query (StoreQuery.recordDone W.node
        ⟨t.taskId, partitionTag t.task.partition, digest, stage, []⟩)
      pure (out.1, some out.2)) hrun
    (by
      rintro _ c hx rfl
      exact files_recorded ht hx)
    (fun e hx d hd => hd.mono (hnot e hx))
  unfold servedOrRun
  by_cases hblob : t.blob = ""
  · rw [if_pos hblob]
    exact hran
  · rw [if_neg hblob]
    refine files_ask (φ := fun stored => ∀ data, stored = some data → W.D.hex data = t.blob)
      (Y := fun stored d => Filed W.D.hex W.node d₀ ids d ∧
        (stored ≠ none → d.hasBlob t.blob = true)) trivial trivial ?_ ?_
    · intro d stored d' _ hd hanswer
      obtain ⟨hstored, rfl⟩ : stored = (d.get W.D.hex t.blob).1 ∧
        d' = (d.get W.D.hex t.blob).2 := Prod.mk.inj hanswer
      refine ⟨?_, fun hcalm => ⟨(hd hcalm).get _, ?_⟩⟩
      · intro data hdata
        exact (Disk.get_eq_some.mp (hstored.symm.trans hdata)).2
      · intro hne
        obtain ⟨data, hdata⟩ := Option.ne_none_iff_exists'.mp hne
        obtain ⟨hobject, -⟩ := Disk.get_eq_some.mp (hstored.symm.trans hdata)
        unfold Disk.hasBlob
        rw [Disk.objects_get, hobject]
        rfl
    · intro stored hstored
      cases stored with
      | none => exact Files.weaken hran (fun d hd => hd.1) (fun _ hd => hd) fun _ ho => ho
      | some data =>
          obtain ⟨c, hx, hc⟩ := ht.reads t.blob (ht.held hblob)
          have hdata : data = enc c := W.D.hex_injective ((hstored data rfl).trans hc)
          have hserved : Files W result
              (Filed W.D.hex W.node d₀ (withTask ids t x))
              (Filed W.D.hex W.node d₀ (withTask ids t x))
              (pure (data, none) : StoreScript ω β (BlobData × Option κ))
              (fun out c => out.1 = enc c ∧ (out.2 = none ∨ out.2 = some (b c))) (.ok c) :=
            files_pure ⟨hdata, Or.inl rfl⟩
          rw [hx]
          refine Triple.weaken hserved ?_ fun _ _ ho => by rwa [hx] at ho
          rintro d ⟨htruthful, hd⟩
          refine ⟨htruthful, fun hcalm => ?_⟩
          obtain ⟨hfiled, hthere⟩ := hd hcalm
          obtain ⟨e, he, hid, hstage, heblob⟩ := ht.recorded hcalm hblob
          refine ⟨hfiled.sound, hfiled.ended, hfiled.kept, ?_⟩
          rintro id (hid' | ⟨rfl, -⟩)
          · exact hfiled.has id hid'
          · refine ⟨e, hfiled.kept e he hstage, hid, hstage, ?_⟩
            rw [heblob]
            exact hthere (by simp)

/-- These tasks more are filed, those whose processes give results. -/
def withTasks (ids : String → Prop) (tasks : List KeyedTask) (good : KeyedTask → Prop)
    (id : String) : Prop := ids id ∨ ∃ t ∈ tasks, id = t.taskId ∧ good t

/-- One task after the other, by induction on those left. -/
theorem mirrors_fold {A A' U U' : Type} {r : A → A' → Prop} {s : U → U' → Prop}
    {f : A → U → Except Raised A} {g : A' → U' → Except Raised A'}
    (hfold : ∀ a a' u u', r a a' → s u u' → Matches r (f a u) (g a' u'))
    {call : KeyedTask → StoreScript ω β U} {plain : KeyedTask → Except Raised U'}
    {φ : KeyedTask → Prop} {tasks : List KeyedTask}
    (hcall : ∀ t ∈ tasks, ∀ ids, Mirrors W result (Filed W.D.hex W.node d₀ ids)
      (Filed W.D.hex W.node d₀ (withTasks ids [t] φ)) (call t) s (plain t))
    {a : A} {a' : A'} (ha : r a a') :
    Mirrors W result (Filed W.D.hex W.node d₀ ids)
      (Filed W.D.hex W.node d₀ (withTasks ids tasks φ))
      (tasks.foldlM (fun a t => call t >>= fun u => Prog.ofExcept (f a u)) a) r
      (tasks.foldlM (fun a t => plain t >>= fun u => g a u) a') := by
  induction tasks generalizing a a' ids with
  | nil =>
      have hpure : Files W result (Filed W.D.hex W.node d₀ ids) (Filed W.D.hex W.node d₀ ids)
        (pure a) r (.ok a') := files_pure ha
      refine hpure.mirrors.weaken (fun _ hd => hd) ?_ fun _ ho => ho
      intro d hd
      refine hd.mono ?_
      rintro id (hid | ⟨t, ht, -⟩)
      · exact hid
      · cases ht
  | cons t rest ih =>
      rw [List.foldlM_cons, List.foldlM_cons]
      refine mirrors_bind (K := Filed W.D.hex W.node d₀ (withTasks ids [t] φ)) (r := r) ?_ ?_
      · refine mirrors_bind (hcall t List.mem_cons_self ids) ?_
        intro u u' _ hu
        exact (files_ofExcept (hfold _ _ _ _ ha hu)).mirrors
      · intro b b' _ hb
        refine (ih (fun t' ht' => hcall t' (List.mem_cons_of_mem _ ht')) hb).weaken
          (fun _ hd => hd) ?_ fun _ ho => ho
        intro d hd
        refine hd.mono ?_
        rintro id (hid | ⟨t', ht', hid, hgood⟩)
        · exact Or.inl (Or.inl hid)
        · rcases List.mem_cons.mp ht' with rfl | ht'
          · exact Or.inl (Or.inr ⟨t', List.mem_singleton_self t', hid, hgood⟩)
          · exact Or.inr ⟨t', ht', hid, hgood⟩

end Task

/-! ### Plans of one stage -/

/-- A value taken from a store or from its process: it may have lost the warnings it carried. -/
def Served {V : Type} (a c : Carried V) : Prop :=
  a.value = c.value ∧ (a.caught = none ∨ a.caught = c.caught)

/-- A plan whose result does not depend on which of two related partials it is given. -/
structure LooksThrough {U R : Type} [Partials U R] (plan : Plan U R) (rel : U → U → Prop) :
    Prop where
  refl : ∀ a, rel a a
  combine : ∀ a a' b b', rel a a' → rel b b' →
    Matches rel (plan.combine a b) (plan.combine a' b')
  failed : ∀ a a', rel a a' → Partials.failed a = Partials.failed a'
  value : ∀ a a', rel a a' → plan.finalize = none → Partials.value a = Partials.value a'
  final : ∀ a a' fn, rel a a' → plan.finalize = some fn →
    fn (Partials.value a) = fn (Partials.value a')

section Chunks

variable {W : Setting} {result : ω → Except Raised β} {d₀ : Disk} {ids : String → Prop}
  {O V R U : Type}

theorem LooksThrough.finalized [Partials U R] {plan : Plan U R} {rel : U → U → Prop}
    (h : LooksThrough plan rel) {a a' : U} (ha : rel a a') (n k : Nat) :
    finalizeResult plan ⟨a, n, k, none, []⟩ = finalizeResult plan ⟨a', n, k, none, []⟩ := by
  unfold finalizeResult
  dsimp only
  rw [h.failed a a' ha]
  cases hfn : plan.finalize with
  | none =>
      dsimp only
      rw [h.value a a' ha hfn]
  | some fn =>
      dsimp only
      rw [h.final a a' fn ha hfn]

/-- A skipping plan looks through what its base looks through. -/
theorem LooksThrough.skip {sp : SkipPlan R} {rel : R → R → Prop}
    (h : LooksThrough sp.base fun a b => rel a.value b.value) :
    LooksThrough sp.plan fun a b => rel a.value b.value ∧ a.failed = b.failed where
  refl a := ⟨h.refl ⟨a.value⟩, rfl⟩
  combine a a' b b' ha hb := by
    change Matches _ (sp.combine a b) (sp.combine a' b')
    unfold SkipPlan.combine
    rw [ha.2, hb.2]
    split_ifs
    · rfl
    · exact (h.combine ⟨a.value⟩ ⟨a'.value⟩ ⟨b.value⟩ ⟨b'.value⟩ ha.1 hb.1).map
        fun v v' hv => ⟨hv, rfl⟩
  failed a a' ha := ha.2
  value a a' ha hnone := h.value ⟨a.value⟩ ⟨a'.value⟩ ha.1 hnone
  final a a' fn ha hfn := h.final ⟨a.value⟩ ⟨a'.value⟩ fn ha.1 hfn

theorem settled_process (sp : SkipPlan R) (p : Partition) :
    sp.settled p (sp.base.process p) = sp.process p := rfl

theorem matches_settled {sp : SkipPlan R} {rel : R → R → Prop} (hrefl : ∀ a, rel a a)
    (p : Partition) {o x : Except Raised (Plain R)}
    (h : Matches (fun a b => rel a.value b.value) o x) :
    Matches (fun a b : Partial R => rel a.value b.value ∧ a.failed = b.failed) (sp.settled p o)
      (sp.settled p x) := by
  have hmissing : ∀ failed, Matches
      (fun a b : Partial R => rel a.value b.value ∧ a.failed = b.failed)
      (sp.missing failed) (sp.missing failed) := by
    intro failed
    unfold SkipPlan.missing
    cases sp.base.empty with
    | error e => rfl
    | ok v => exact ⟨hrefl _, rfl⟩
  unfold SkipPlan.settled SkipPlan.process
  dsimp only
  cases sp.lost.lookup (chunkLabel p) with
  | some failed => exact hmissing failed
  | none =>
      cases o with
      | ok v =>
          cases x with
          | ok v' => exact ⟨h, rfl⟩
          | error e => exact h.elim
      | error e =>
          cases x with
          | ok v' => exact h.elim
          | error e' =>
              obtain rfl : e = e' := h
              dsimp only
              split_ifs
              · exact hmissing _
              · rfl

/-- The loop of the runner over tagged tasks mirrors the one over plain tasks. -/
theorem mirrors_runTasksWith [Partials U R] {plan : Plan U R} {rel : U → U → Prop}
    (hplan : LooksThrough plan rel) {call : KeyedTask → StoreScript ω β U}
    {good : KeyedTask → Prop} {tasks : List KeyedTask} (htasks : tasks.map (·.task) = plan.tasks)
    (hcall : ∀ t ∈ tasks, ∀ ids, Mirrors W result (Filed W.D.hex W.node d₀ ids)
      (Filed W.D.hex W.node d₀ (withTasks ids [t] good)) (call t) rel
      (plan.process t.task.partition)) :
    Mirrors W result (Filed W.D.hex W.node d₀ ids)
      (Filed W.D.hex W.node d₀ (withTasks ids tasks good)) (runTasksWith plan call tasks) (· = ·)
      (sequentialTasks plan) := by
  have hordered : plan.ordered =
      (tasks.insertionSort fun a b => a.task.key ≤ b.task.key).map (·.task) := by
    unfold Plan.ordered
    rw [← htasks]
    exact (List.map_insertionSort (fun a b : KeyedTask => a.task.key ≤ b.task.key)
      (fun a b : Task => a.key ≤ b.key) (·.task) tasks fun _ _ _ _ => Iff.rfl).symm
  have hlength : tasks.length = plan.tasks.length := by rw [← htasks, List.length_map]
  have hmem : ∀ t, t ∈ tasks.insertionSort (fun a b => a.task.key ≤ b.task.key) ↔ t ∈ tasks :=
    fun t => (List.perm_insertionSort (fun a b : KeyedTask => a.task.key ≤ b.task.key)
      tasks).mem_iff
  have hfolded : plan.folded plan.ordered = plan.empty >>= fun value =>
      (tasks.insertionSort fun a b => a.task.key ≤ b.task.key).foldlM (fun value t =>
        plan.process t.task.partition >>= fun part => plan.combine value part) value := by
    rw [hordered]
    unfold Plan.folded Plan.foldFrom
    simp only [List.foldlM_map]
  unfold runTasksWith sequentialTasks
  rw [hfolded, hlength, bind_assoc]
  refine mirrors_bind (K := Filed W.D.hex W.node d₀ ids) (r := rel) ?_ ?_
  · refine (files_ofExcept ?_).mirrors
    cases plan.empty with
    | error e => rfl
    | ok v => exact hplan.refl v
  · intro value value' _ hvalue
    refine mirrors_bind (K := Filed W.D.hex W.node d₀ (withTasks ids tasks good)) (r := rel) ?_ ?_
    · refine Mirrors.weaken (mirrors_fold hplan.combine (φ := good)
        (fun t ht => hcall t ((hmem t).mp ht)) hvalue) (fun _ hd => hd) ?_ fun _ ho => ho
      intro d hd
      refine hd.mono ?_
      rintro id (hid | ⟨t, ht, hrest⟩)
      · exact Or.inl hid
      · exact Or.inr ⟨t, (hmem t).mpr ht, hrest⟩
    · intro a a' _ ha
      refine (files_ofExcept ?_).mirrors
      rw [hplan.finalized ha]
      exact matches_eq.mpr rfl

theorem base_of_skipping {plan : Plan (Plain R) R} {skipFailed : Int} {skipped : AnyPlan R}
    (h : skipping (.plain plan) skipFailed = .ok skipped) : skipped.base = plan := by
  unfold skipping at h
  split at h
  · obtain rfl := Except.ok.inj h
    rfl
  · split_ifs at h
    all_goals
      obtain rfl := Except.ok.inj h
      rfl

/-- So does the runner, on a plan going on past failures too. -/
theorem mirrors_runWith {plan : Plan (Plain R) R} {rel : R → R → Prop}
    (hplan : LooksThrough plan fun a b => rel a.value b.value)
    {call : KeyedTask → StoreScript ω β (Plain R)} {good : KeyedTask → Prop}
    {tasks : List KeyedTask} (htasks : tasks.map (·.task) = plan.tasks)
    (hcall : ∀ t ∈ tasks, ∀ ids, Files W result (Filed W.D.hex W.node d₀ ids)
      (Filed W.D.hex W.node d₀ (withTasks ids [t] good)) (call t)
      (fun a b => rel a.value b.value) (plan.process t.task.partition)) (skipFailed : Int) :
    Mirrors W result (Filed W.D.hex W.node d₀ ids)
      (Filed W.D.hex W.node d₀ (withTasks ids tasks good)) (runWith plan skipFailed call tasks)
      (· = ·) (sequential plan skipFailed) := by
  unfold runWith sequential
  refine mirrors_bind (K := Filed W.D.hex W.node d₀ ids) (r := fun _ _ => True) ?_ ?_
  · refine (files_ofExcept ?_).mirrors
    cases plan.bound with
    | error e => rfl
    | ok u => trivial
  · intro _ _ _ _
    refine mirrors_bind (K := Filed W.D.hex W.node d₀ ids) (r := (· = ·)) ?_ ?_
    · exact (files_ofExcept (matches_eq.mpr rfl)).mirrors
    · rintro skipped _ hskip rfl
      cases skipped with
      | plain base =>
          obtain rfl : base = plan := base_of_skipping hskip
          exact mirrors_runTasksWith hplan htasks fun t ht ids => (hcall t ht ids).mirrors
      | skip sp =>
          obtain rfl : sp.base = plan := base_of_skipping hskip
          refine mirrors_runTasksWith hplan.skip htasks ?_
          intro t ht ids
          have hprocess : sp.plan.process t.task.partition =
              (.ok (sp.base.process t.task.partition) >>= fun o => sp.settled t.task.partition o) :=
            rfl
          rw [hprocess]
          refine mirrors_bind (files_attempt (hcall t ht ids)).mirrors ?_
          rintro o x - hox
          exact (files_ofExcept (matches_settled (fun a => hplan.refl ⟨a⟩) _ hox)).mirrors

/-- The process of a resumable plan gives what the process it wraps gives. -/
theorem files_callResumable {py : Objects O V} {args : ResumeArgs O} {process : O}
    (hnode : W.node = args.worker.node) {t : KeyedTask}
    (ht : Tagged W d₀ "" t (taskResult py args process t)
      fun c => (py.codec args.codec).encode c.value) :
    Files W (taskResult py args process) (Filed W.D.hex W.node d₀ ids)
      (Filed W.D.hex W.node d₀ (withTask ids t (taskResult py args process t)))
      (callResumable py args t) Served (taskResult py args process t) := by
  unfold callResumable
  rw [← hnode]
  refine files_bind_same (files_servedOrRun (b := fun c => c.caught) ht ?_) ?_
    fun _ _ _ hd => hd
  · refine files_ask (φ := fun outcome => outcome = taskResult py args process t)
      (Y := fun _ => Filed W.D.hex W.node d₀ ids) trivial trivial ?_ ?_
    · rintro d outcome d' _ hd ⟨rfl, rfl⟩
      exact ⟨rfl, hd⟩
    · rintro outcome rfl
      refine files_bind_same (files_ofExcept (matches_eq.mpr rfl)) ?_ fun _ _ _ hd => hd
      rintro c _ _ rfl
      exact files_pure rfl
  · rintro ⟨data, beside⟩ c _ ⟨hdata, hbeside⟩
    obtain rfl : data = (py.codec args.codec).encode c.value := hdata
    dsimp only
    rw [(py.codec args.codec).faithful]
    refine files_pure ⟨rfl, ?_⟩
    rcases hbeside with hnone | hsome
    · obtain rfl : beside = none := hnone
      exact Or.inl rfl
    · obtain rfl : beside = some c.caught := hsome
      exact Or.inr rfl

/-- Its chunks give no warnings, or its combine and its finalize look through those given. -/
def ObjectPlan.SetsAside (py : Objects O V) (behaviors : List BlobData) (plan : ObjectPlan O V) :
    Prop :=
  (∀ t ∈ plan.tasks, ∀ c, py.call plan.process behaviors t.partition = .ok c → c.caught = none) ∨
    (∃ fn, plan.combine = warnedCombine fn) ∧ ∃ fn, plan.finalize = some (warnedFinalize fn)

theorem looksThrough_of_setsAside {py : Objects O V} {behaviors : List BlobData}
    {plan : ObjectPlan O V} (h : plan.SetsAside py behaviors) :
    ∃ rel : Carried V → Carried V → Prop,
      LooksThrough (plan.plan py behaviors) (fun a b => rel a.value b.value) ∧
      ∀ t ∈ plan.tasks, ∀ a c, py.call plan.process behaviors t.partition = .ok c → Served a c →
        rel a c := by
  rcases h with hplain | ⟨⟨fn, hcombine⟩, ⟨final, hfinal⟩⟩
  · have heq : ∀ {a b : Plain (Carried V)}, a.value = b.value → a = b := by
      rintro ⟨a⟩ ⟨b⟩ rfl
      rfl
    refine ⟨(· = ·), ⟨fun _ => rfl, ?_, ?_, ?_, ?_⟩, ?_⟩
    · intro a a' b b' ha hb
      rw [heq ha, heq hb]
      cases (plan.plan py behaviors).combine a' b' <;> rfl
    · exact fun _ _ _ => rfl
    · exact fun a a' ha _ => ha
    · intro a a' fn ha _
      exact congrArg fn ha
    · rintro t ht ⟨value, caught⟩ c hc ⟨hvalue, hcaught⟩
      have hnone := hplain t ht c hc
      rw [hnone, or_self] at hcaught
      obtain ⟨value', caught'⟩ := c
      obtain rfl : value = value' := hvalue
      obtain rfl : caught = none := hcaught
      obtain rfl : caught' = none := hnone
      rfl
  · refine ⟨fun a b => a.value = b.value, ⟨fun _ => rfl, ?_, ?_, ?_, ?_⟩, ?_⟩
    · intro a a' b b' ha hb
      change Matches _ ((plan.combine a.value b.value).map Plain.mk)
        ((plan.combine a'.value b'.value).map Plain.mk)
      rw [hcombine]
      unfold warnedCombine
      rw [ha, hb]
      cases fn a'.value.value b'.value.value <;> rfl
    · exact fun _ _ _ => rfl
    · intro a a' _ hnone
      change plan.finalize = none at hnone
      rw [hfinal] at hnone
      cases hnone
    · intro a a' fn' ha hfn
      obtain rfl := Option.some.inj (hfinal.symm.trans hfn)
      change warnedFinalize final a.value = warnedFinalize final a'.value
      unfold warnedFinalize
      rw [ha]
    · exact fun t _ a c _ hserved => hserved.1

/-- **A resumable plan of one stage mirrors the plain plan.** -/
theorem mirrors_runResumableTasks {py : Objects O V} {args : ResumeArgs O} {plan : ObjectPlan O V}
    (hnode : W.node = args.worker.node) (haside : plan.SetsAside py args.behaviors)
    {tasks : List KeyedTask} (htasks : tasks.map (·.task) = plan.tasks)
    (htagged : ∀ t ∈ tasks, Tagged W d₀ "" t (taskResult py args plan.process t)
      fun c => (py.codec args.codec).encode c.value) :
    Mirrors W (taskResult py args plan.process) (Filed W.D.hex W.node d₀ ids)
      (Filed W.D.hex W.node d₀ (withTasks ids tasks fun t =>
        ∃ c, taskResult py args plan.process t = .ok c))
      (runResumableTasks py args plan tasks) (· = ·)
      (sequential (plan.plan py args.behaviors) args.skipFailed) := by
  obtain ⟨rel, hlooks, hserved⟩ := looksThrough_of_setsAside haside
  refine mirrors_runWith hlooks htasks ?_ args.skipFailed
  intro t ht ids
  have hin : t.task ∈ plan.tasks := by
    rw [← htasks]
    exact List.mem_map_of_mem ht
  have hprocess : (plan.plan py args.behaviors).process t.task.partition =
      (taskResult py args plan.process t >>= fun c => .ok ⟨c⟩) := by
    change (taskResult py args plan.process t).map Plain.mk = _
    cases taskResult py args plan.process t <;> rfl
  rw [hprocess]
  refine files_bind (files_callResumable hnode (htagged t ht)) ?_ ?_
  · intro a c hc hac
    refine Files.weaken (files_pure (hserved t.task hin a c hc hac)) (fun _ hd => hd) ?_
      fun _ ho => ho
    intro d hd
    refine hd.mono ?_
    rintro id (hid | ⟨t', ht', hid, hgood⟩)
    · exact Or.inl hid
    · obtain rfl := List.mem_singleton.mp ht'
      exact Or.inr ⟨hid, hgood⟩
  · intro e he d hd
    refine hd.mono ?_
    rintro id (hid | ⟨t', ht', hid, hgood⟩)
    · exact Or.inl hid
    · obtain rfl := List.mem_singleton.mp ht'
      exact Or.inr ⟨hid, hgood⟩

end Chunks

/-! ### Plans of several stages -/

section Stages

variable {O V : Type}

/-- The blob of a task is one its recipe gives. -/
def FromRecipe (D : Digest) (P : Pickling O) (py : Objects O V) (taskId blob : String) : Prop :=
  ∃ r : Recipe O, r.Whole ∧ r.key D P = .ok taskId ∧ ∃ data, r.payload py = .ok data ∧
    blob = D.hex data

/-- The blob of a tagged task is the one a journal names for it. -/
def FromJournal (d₀ : Disk) (t : KeyedTask) : Prop :=
  t.blob ≠ "" → ∃ e ∈ d₀.entries, e.taskId = t.taskId ∧ e.stage ≠ "environment" ∧ e.blob = t.blob

variable {D : Digest} {P : Pickling O} {py : Objects O V} {W : Setting} {d₀ : Disk}
  {ids : String → Prop} {t : KeyedTask}

theorem fromJournal_tagged (task : Task) (taskId : String) :
    FromJournal d₀ (tagged d₀.completed task taskId) := by
  intro hblob
  cases hget : d₀.completed.get taskId with
  | none =>
      unfold tagged at hblob
      rw [hget] at hblob
      exact absurd rfl hblob
  | some entry =>
      obtain ⟨hmem, hid, hstage, -⟩ := Disk.completed_get hget
      refine ⟨entry, hmem, hid, hstage, ?_⟩
      unfold tagged
      rw [hget]

/-- A task with a whole recipe. -/
theorem tagged_of_recipe {W : Setting} (hL : W.L = FromRecipe W.D P py)
    (hd₀ : Truthful W.L d₀) {stage : String} {x : Except Raised γ} {enc : γ → BlobData}
    {r : Recipe O} (hwhole : r.Whole) (hkey : r.key W.D P = .ok t.taskId)
    (hpayload : r.payload py = x.map enc) (hjournal : FromJournal d₀ t)
    (hstage : W.calm → stage ≠ "environment") : Tagged W d₀ stage t x enc where
  held hblob := by
    obtain ⟨e, he, hid, hne, heblob⟩ := hjournal hblob
    rw [← hid, ← heblob]
    exact hd₀ e he hne
  recorded _ hblob := hjournal hblob
  reads blob hblob := by
    rw [hL] at hblob
    obtain ⟨r', hwhole', hkey', data, hdata, rfl⟩ := hblob
    obtain rfl := Recipe.key_inj hwhole hwhole' hkey hkey'
    obtain ⟨c, hc, rfl⟩ := map_ok_iff.mp (hpayload.symm.trans hdata)
    exact ⟨c, hc, rfl⟩
  writes c hc := by
    rw [hL]
    refine ⟨r, hwhole, hkey, enc c, ?_, rfl⟩
    rw [hpayload, hc]
    rfl
  staged := hstage

theorem Files.mirrors_ok {result : ω → Except Raised β} {I J J' : Disk → Prop}
    {p : StoreScript ω β α} {rel : α → γ → Prop} {x : Except Raised γ}
    (h : Files W result I J p rel x) (hJ : ∀ c, x = .ok c → ∀ d, J d → J' d) :
    Mirrors W result I J' p rel x := by
  refine Triple.weaken h (fun _ hd => hd) ?_
  rintro o d ⟨hmatch, htruthful, hd⟩
  refine ⟨hmatch, htruthful, ?_⟩
  rintro hcalm a rfl
  cases x with
  | error e => exact hmatch.elim
  | ok c => exact hJ c rfl d (hd hcalm)

/-- The process of a stage gives what the process it wraps gives. -/
theorem files_callResumableStage {args : ResumeArgs O} {stage : ObjectStage O}
    (hnode : W.node = args.worker.node) {inputs : List BlobData}
    (ht : Tagged W d₀ stage.kind t
      (py.callStage stage.process args.behaviors t.task inputs) fun data => data) :
    Files W (stageResult py args) (Filed W.D.hex W.node d₀ ids)
      (Filed W.D.hex W.node d₀ (withTask ids t
        (py.callStage stage.process args.behaviors t.task inputs)))
      (callResumableStage args stage inputs t) (· = ·)
      (py.callStage stage.process args.behaviors t.task inputs) := by
  unfold callResumableStage
  rw [← hnode]
  refine files_bind_same (files_servedOrRun (b := fun _ => ()) ht ?_) ?_ fun _ _ _ hd => hd
  · refine files_ask (φ := fun outcome => outcome =
      py.callStage stage.process args.behaviors t.task inputs)
      (Y := fun _ => Filed W.D.hex W.node d₀ ids) trivial trivial ?_ ?_
    · rintro d outcome d' _ hd ⟨rfl, rfl⟩
      exact ⟨rfl, hd⟩
    · rintro outcome rfl
      refine files_bind_same (files_ofExcept (matches_eq.mpr rfl)) ?_ fun _ _ _ hd => hd
      rintro data _ _ rfl
      exact files_pure rfl
  · rintro ⟨data, beside⟩ c _ ⟨hdata, -⟩
    exact files_pure hdata

/-- The stages left, tagged: each task has its recipe's key and the blob a journal names for it. -/
def KeyedFrom (D : Digest) (P : Pickling O) (ir : BlobData) (args : ResumeArgs O) (d₀ : Disk) :
    List (List (Recipe O)) → List (KeyedStage O) → Prop
  | _, [] => True
  | before, s :: rest => s.tasks.map (·.task) = s.stage.tasks ∧
      List.Forall₂ (fun t r => r.key D P = .ok t.taskId ∧ FromJournal d₀ t) s.tasks
        (stageRecipes ir args.behaviors args.salt before s.stage) ∧
      KeyedFrom D P ir args d₀
        (before ++ [stageRecipes ir args.behaviors args.salt before s.stage]) rest

theorem foldlM_append_mapM {α γ : Type} (f : α → Except Raised γ) (xs : List α) (acc : List γ) :
    xs.foldlM (fun out x => f x >>= fun y => .ok (out ++ [y])) acc =
      (xs.mapM f).map fun ys => acc ++ ys := by
  induction xs generalizing acc with
  | nil => exact congrArg Except.ok (List.append_nil acc).symm
  | cons x xs ih =>
      rw [List.foldlM_cons, List.mapM_cons]
      cases f x with
      | error e => rfl
      | ok y =>
          change xs.foldlM _ (acc ++ [y]) = _
          rw [ih]
          cases xs.mapM f with
          | error e => rfl
          | ok ys => exact congrArg Except.ok (List.append_assoc acc [y] ys)

/-- One stage: its payloads are those of its recipes. -/
theorem mirrors_runStageWith {ir : BlobData} {args : ResumeArgs O}
    (hL : W.L = FromRecipe W.D P py) (hd₀ : Truthful W.L d₀) (hnode : W.node = args.worker.node)
    {before : List (List (Recipe O))} {s : KeyedStage O}
    (htasks : s.tasks.map (·.task) = s.stage.tasks)
    (hkeyed : List.Forall₂ (fun t r => r.key W.D P = .ok t.taskId ∧ FromJournal d₀ t) s.tasks
      (stageRecipes ir args.behaviors args.salt before s.stage))
    (hwhole : ∀ rs ∈ before ++ [stageRecipes ir args.behaviors args.salt before s.stage],
      ∀ r ∈ rs, Recipe.Whole r)
    (hstage : W.calm → s.stage.kind ≠ "environment") {payloads : List (List BlobData)}
    (hpayloads : List.Forall₂ (List.Forall₂ fun r data => r.payload py = .ok data) before
      payloads) :
    Mirrors W (stageResult py args) (Filed W.D.hex W.node d₀ ids)
      (Filed W.D.hex W.node d₀ (withTasks ids s.tasks fun _ => True))
      (runStageWith (callResumableStage args) payloads s)
      (fun a b => a = b ∧ List.Forall₂ (List.Forall₂ fun r data => r.payload py = .ok data)
        (before ++ [stageRecipes ir args.behaviors args.salt before s.stage]) a) (do
          let upstream ← stageInputs payloads s.stage.inputs
          let out ← s.stage.tasks.mapM fun task =>
            py.callStage s.stage.process args.behaviors task upstream
          .ok (payloads ++ [out])) := by
  unfold runStageWith
  refine mirrors_bind (K := Filed W.D.hex W.node d₀ ids) (r := (· = ·))
    (files_ofExcept (matches_eq.mpr rfl)).mirrors ?_
  rintro upstream _ hgather rfl
  have hinputs := stageInputs_rel hpayloads hgather
  have hupstream : ∀ r ∈ s.stage.inputs.flatMap fun dep => before.getD dep [], Recipe.Whole r := by
    intro r hr
    obtain ⟨dep, -, hr⟩ := List.mem_flatMap.mp hr
    by_cases hlt : dep < before.length
    · rw [List.getD_eq_getElem?_getD, List.getElem?_eq_getElem hlt, Option.getD_some] at hr
      exact hwhole _ (List.mem_append_left _ (List.getElem_mem hlt)) r hr
    · rw [List.getD_eq_getElem?_getD, List.getElem?_eq_none (by omega), Option.getD_none] at hr
      cases hr
  have hgives : ∀ task, (Recipe.block ir before.length s.stage.kind s.stage.routing
      s.stage.process args.behaviors args.salt task
      (s.stage.inputs.flatMap fun dep => before.getD dep [])).payload py =
        py.callStage s.stage.process args.behaviors task upstream := by
    intro task
    rw [Recipe.payload, Recipe.payloads_eq_ok.mpr hinputs]
    rfl
  have hcall : ∀ t ∈ s.tasks, ∀ ids, Mirrors W (stageResult py args)
      (Filed W.D.hex W.node d₀ ids)
      (Filed W.D.hex W.node d₀ (withTasks ids [t] fun _ => True))
      (callResumableStage args s.stage upstream t) (· = ·)
      (py.callStage s.stage.process args.behaviors t.task upstream) := by
    intro t ht ids
    obtain ⟨i, hi, rfl⟩ := List.mem_iff_getElem.mp ht
    have hi' : i < (stageRecipes ir args.behaviors args.salt before s.stage).length := by
      rw [← hkeyed.length_eq]
      exact hi
    obtain ⟨hkey, hjournal⟩ := hkeyed.get hi hi'
    have hrecipe : (stageRecipes ir args.behaviors args.salt before s.stage).get ⟨i, hi'⟩ =
        .block ir before.length s.stage.kind s.stage.routing s.stage.process args.behaviors
          args.salt s.tasks[i].task (s.stage.inputs.flatMap fun dep => before.getD dep []) := by
      simp only [stageRecipes, ← htasks, List.get_eq_getElem, List.getElem_map]
    have hin := hwhole _ (List.mem_append_right _ (List.mem_singleton_self _)) _
      (List.get_mem _ ⟨i, hi'⟩)
    rw [hrecipe] at hkey hin
    refine Files.mirrors_ok (files_callResumableStage hnode
      (tagged_of_recipe hL hd₀ hin hkey ?_ hjournal hstage)) ?_
    · rw [hgives]
      cases py.callStage s.stage.process args.behaviors s.tasks[i].task upstream <;> rfl
    · intro c hc d hd
      refine hd.mono ?_
      rintro id (hid | ⟨t', ht', hid, -⟩)
      · exact Or.inl hid
      · obtain rfl := List.mem_singleton.mp ht'
        exact Or.inr ⟨hid, c, hc⟩
  have hplain : (s.stage.tasks.mapM fun task =>
      py.callStage s.stage.process args.behaviors task upstream) =
      s.tasks.foldlM (fun out t =>
        py.callStage s.stage.process args.behaviors t.task upstream >>= fun data =>
          .ok (out ++ [data])) [] := by
    have hfold := foldlM_append_mapM (fun task =>
      py.callStage s.stage.process args.behaviors task upstream) s.stage.tasks []
    rw [← htasks, List.foldlM_map] at hfold
    rw [hfold, htasks]
    cases s.stage.tasks.mapM fun task =>
      py.callStage s.stage.process args.behaviors task upstream <;> rfl
  refine mirrors_bind (K := Filed W.D.hex W.node d₀ (withTasks ids s.tasks fun _ => True))
    (r := (· = ·)) ?_ ?_
  · rw [hplain]
    refine mirrors_fold (r := (· = ·)) (s := (· = ·)) (f := fun out data => .ok (out ++ [data]))
      (g := fun out data => .ok (out ++ [data])) ?_ hcall rfl
    rintro a _ u _ rfl rfl
    rfl
  · rintro out _ hout rfl
    refine (files_pure ⟨rfl, List.rel_append hpayloads ?_⟩).mirrors
    refine List.Forall₂.cons ?_ List.Forall₂.nil
    unfold stageRecipes
    rw [List.forall₂_map_left_iff]
    refine (forall₂_of_mapM hout).imp ?_
    intro task data hdata
    rw [hgives]
    exact hdata

theorem stageRecipes_whole {ir : BlobData} {args : ResumeArgs O}
    {before : List (List (Recipe O))} {stage : ObjectStage O}
    (hbefore : ∀ rs ∈ before, ∀ r ∈ rs, Recipe.Whole r)
    (hwhole : ∀ task ∈ stage.tasks, task.partition.WholeStep) :
    ∀ r ∈ stageRecipes ir args.behaviors args.salt before stage, r.Whole := by
  intro r hr
  obtain ⟨task, htask, rfl⟩ := List.mem_map.mp hr
  refine ⟨hwhole task htask, Recipe.allWhole_iff.mpr ?_⟩
  intro r hr
  obtain ⟨dep, -, hr⟩ := List.mem_flatMap.mp hr
  rw [List.getD_eq_getElem?_getD] at hr
  cases hget : before[dep]? with
  | none =>
      rw [hget] at hr
      cases hr
  | some rs =>
      rw [hget] at hr
      exact hbefore rs (List.mem_of_getElem? hget) r hr

/-- The stages one after the other, by induction on those left. -/
theorem mirrors_stages {ir : BlobData} {args : ResumeArgs O} (hL : W.L = FromRecipe W.D P py)
    (hd₀ : Truthful W.L d₀) (hnode : W.node = args.worker.node) {stages : List (KeyedStage O)}
    {before : List (List (Recipe O))} (hkeyed : KeyedFrom W.D P ir args d₀ before stages)
    (hbefore : ∀ rs ∈ before, ∀ r ∈ rs, Recipe.Whole r)
    (hwhole : ∀ s ∈ stages, ∀ task ∈ s.stage.tasks, task.partition.WholeStep)
    (hstage : W.calm → ∀ s ∈ stages, s.stage.kind ≠ "environment")
    {payloads : List (List BlobData)}
    (hpayloads : List.Forall₂ (List.Forall₂ fun r data => r.payload py = .ok data) before
      payloads) :
    Mirrors W (stageResult py args) (Filed W.D.hex W.node d₀ ids)
      (Filed W.D.hex W.node d₀ (withTasks ids (stages.flatMap (·.tasks)) fun _ => True))
      (stages.foldlM (runStageWith (callResumableStage args)) payloads) (· = ·)
      ((stages.map (·.stage)).foldlM (fun payloads stage => do
        let upstream ← stageInputs payloads stage.inputs
        let out ← stage.tasks.mapM fun task =>
          py.callStage stage.process args.behaviors task upstream
        .ok (payloads ++ [out])) payloads) := by
  induction stages generalizing before payloads ids with
  | nil =>
      have hpure : Files W (stageResult py args) (Filed W.D.hex W.node d₀ ids)
        (Filed W.D.hex W.node d₀ ids) (pure payloads) (· = ·) (.ok payloads) := files_pure rfl
      refine hpure.mirrors.weaken (fun _ hd => hd) ?_ fun _ ho => ho
      intro d hd
      refine hd.mono ?_
      rintro id (hid | ⟨t, ht, -⟩)
      · exact hid
      · cases ht
  | cons s rest ih =>
      obtain ⟨htasks, hkeys, hrest⟩ := hkeyed
      have hall : ∀ rs ∈ before ++ [stageRecipes ir args.behaviors args.salt before s.stage],
          ∀ r ∈ rs, Recipe.Whole r := by
        intro rs hrs
        rcases List.mem_append.mp hrs with hrs | hrs
        · exact hbefore rs hrs
        · obtain rfl := List.mem_singleton.mp hrs
          exact stageRecipes_whole hbefore (hwhole s List.mem_cons_self)
      rw [List.map_cons, List.foldlM_cons, List.foldlM_cons]
      refine mirrors_bind (mirrors_runStageWith hL hd₀ hnode htasks hkeys hall
        (fun hcalm => hstage hcalm s List.mem_cons_self) hpayloads) ?_
      rintro a _ - ⟨rfl, hmore⟩
      refine (ih hrest hall (fun s' hs' => hwhole s' (List.mem_cons_of_mem _ hs'))
        (fun hcalm s' hs' => hstage hcalm s' (List.mem_cons_of_mem _ hs')) hmore).weaken
        (fun _ hd => hd) ?_ fun _ ho => ho
      intro d hd
      refine hd.mono ?_
      rintro id (hid | ⟨t, ht, hid, -⟩)
      · exact Or.inl (Or.inl hid)
      · rw [List.flatMap_cons] at ht
        rcases List.mem_append.mp ht with ht | ht
        · exact Or.inl (Or.inr ⟨t, ht, hid, trivial⟩)
        · exact Or.inr ⟨t, ht, hid, trivial⟩

/-- **A resumable plan of several stages mirrors the plain plan.** -/
theorem mirrors_runResumableStages {args : ResumeArgs O} {plan : ObjectStaged O V}
    (hL : W.L = FromRecipe W.D P py) (hd₀ : Truthful W.L d₀) (hnode : W.node = args.worker.node)
    {stages : List (KeyedStage O)} (hstages : stages.map (·.stage) = plan.stages)
    (hkeyed : KeyedFrom W.D P plan.ir args d₀ [] stages)
    (hwhole : ∀ s ∈ plan.stages, ∀ task ∈ s.tasks, task.partition.WholeStep)
    (hstage : W.calm → ∀ s ∈ plan.stages, s.kind ≠ "environment") :
    Mirrors W (stageResult py args) (Filed W.D.hex W.node d₀ ids)
      (Filed W.D.hex W.node d₀ (withTasks ids (stages.flatMap (·.tasks)) fun _ => True))
      (runResumableStages py args plan stages) (· = ·)
      (sequentialStages py args.behaviors plan args.skipFailed) := by
  have hmem : ∀ s ∈ stages, s.stage ∈ plan.stages := by
    intro s hs
    rw [← hstages]
    exact List.mem_map_of_mem hs
  unfold runResumableStages sequentialStages
  refine mirrors_bind (K := Filed W.D.hex W.node d₀ ids) (r := fun _ _ => True) ?_ ?_
  · refine (files_ofExcept ?_).mirrors
    cases plan.bound with
    | error e => rfl
    | ok u => trivial
  · intro _ _ _ _
    split_ifs
    · exact Files.mirrors_ok (files_ofExcept (y := .error _) rfl) fun _ hc => by cases hc
    · refine mirrors_bind (K := Filed W.D.hex W.node d₀
        (withTasks ids (stages.flatMap (·.tasks)) fun _ => True)) (r := (· = ·)) ?_ ?_
      · unfold stagePayloads
        rw [← hstages]
        exact mirrors_stages hL hd₀ hnode hkeyed (fun rs hrs => by cases hrs)
          (fun s hs => hwhole s.stage (hmem s hs))
          (fun hcalm s hs => hstage hcalm s.stage (hmem s hs)) List.Forall₂.nil
      · rintro payloads _ - rfl
        exact (files_ofExcept (matches_eq.mpr rfl)).mirrors

end Stages

end Graphed

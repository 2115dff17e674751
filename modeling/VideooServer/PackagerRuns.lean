import Mathlib.Data.List.Induction
import VideooServer.LivePackager

/-!
# Runs of the packager

What holds of the livepkgr application after any sequence of publish,
unpublish and releaseStream events.
-/

namespace VideooServer.LivePackager

open ByteText StepRuns

/-- The name that a part of a stream is packaged under, if it is. -/
def Options.target (o : Options) (name : Bytes) : Part → Option Bytes
  | .stream => some name
  | .audio =>
    if o.audioStreamName ≠ [] ∧ (o.audioStreamSrc = [] ∨ o.audioStreamSrc = name) then
      some o.audioStreamName
    else none
  | .video =>
    if o.videoStreamName ≠ [] ∧ (o.videoStreamSrc = [] ∨ o.videoStreamSrc = name) then
      some o.videoStreamName
    else none

/-- Package a part that the options name. -/
def packageTo (engine : Engine) (part : Part) (name : Bytes) (o : Options) (app : App) :
    Except App App :=
  match o.target name part with
  | none => .ok app
  | some target =>
    if engine.get (packaged target) then .ok (package engine part name target o app)
    else .error app

variable {engine : Engine} {app app' : App} {part : Part} {name : Bytes} {o : Options}
  {client : ℕ} {e : Event} {es : List Event} {clear : Bool}

/-- The audio is packaged as the options name it. -/
theorem packagePart_audio : packagePart engine .audio name o.audioStreamName o.audioStreamSrc o =
    packageTo engine .audio name o := by
  funext app
  simp only [packagePart, packageTo, Options.target]
  by_cases hname : o.audioStreamName = []
  · simp [hname]
  · by_cases hempty : o.audioStreamSrc = []
    · simp [hname, hempty]
    · by_cases hsrc : o.audioStreamSrc = name <;> simp [hname, hempty, hsrc]

/-- So is the video. -/
theorem packagePart_video : packagePart engine .video name o.videoStreamName o.videoStreamSrc o =
    packageTo engine .video name o := by
  funext app
  simp only [packagePart, packageTo, Options.target]
  by_cases hname : o.videoStreamName = []
  · simp [hname]
  · by_cases hempty : o.videoStreamSrc = []
    · simp [hname, hempty]
    · by_cases hsrc : o.videoStreamSrc = name <;> simp [hname, hempty, hsrc]

/-- What onPublish does with a stream that is not published yet. -/
theorem onPublish_eq (h : (app.publications name).publishing = false)
    (hget : engine.get (packaged name) = true) (ho : o =
      options engine name (app.publications name).publishQueryString)
    (hfree : (app.recorders (packaged name)).liveEvent = [] ∨
      (app.recorders (packaged name)).liveEvent = o.liveEventName) :
    onPublish engine client name app =
      ((packageTo engine .stream name o
        (app.modify name fun p => { p with publishing := true })).bind
          (packageTo engine .audio name o)).bind (packageTo engine .video name o) := by
  have hevent : ¬((app.recorders (packaged name)).liveEvent ≠ [] ∧
      (app.recorders (packaged name)).liveEvent ≠ o.liveEventName) := by
    rintro ⟨hne, hother⟩
    exact hfree.elim hne hother
  subst ho
  simp [onPublish, h, App.modify, hget, hevent, packagePart_audio, packagePart_video, packageTo,
    Options.target, Except.bind]

/-- The publications after one was assigned to. -/
@[simp] theorem App.publications_modify (f : Publication → Publication) (n : Bytes) :
    (app.modify name f).publications n =
      if n = name then f (app.publications name) else app.publications n :=
  Function.update_apply ..

/-- The packaged streams after one was assigned to. -/
@[simp] theorem App.recorders_modifyRecorder (f4f n : Bytes) (f : Recorder → Recorder) :
    (app.modifyRecorder f4f f).recorders n =
      if n = f4f then f (app.recorders f4f) else app.recorders n :=
  Function.update_apply ..

/-- The arrays after an assignment. -/
theorem App.table_assign (v : Option Bytes) (p : Part) (n : Bytes) :
    (app.assign part name v).table p n =
      if p = part ∧ n = name then some v else app.table p n := by
  rw [App.assign]
  dsimp only
  by_cases hp : p = part
  · subst hp
    by_cases hn : n = name <;> simp [hn]
  · simp [hp]

/-- Different streams are packaged under different names. -/
theorem packaged_injective : Function.Injective packaged :=
  fun _ _ h => List.append_cancel_left h

/-- What addToClear leaves to be cleared. -/
theorem mem_toclear_addToClear (x y : Bytes) : x ∈ (addToClear y app).toclear ↔
    x ∈ app.toclear ∨ (app.clearOnAppStop = true ∧ x = y) := by
  rw [addToClear]
  by_cases hclear : app.clearOnAppStop = true
  · by_cases hmem : y ∈ app.toclear
    · have hmem' : x = y → x ∈ app.toclear := fun he => he ▸ hmem
      simpa [hclear, hmem] using hmem'
    · simp [hclear, hmem]
  · simp [hclear]

/-! ### The packager as its users see it -/

/-- What becomes of a name. -/
structure Source where
  /-- The options it is packaged with while it is published. -/
  live : Option Options
  /-- The client that waits to publish it. -/
  waiting : Option ℕ
  /-- The latest query string. -/
  query : Bytes
  /-- Whether it was unpublished at some time. -/
  ended : Bool

/-- A client publishes the name: it is packaged, or the client waits. -/
def Source.publish (engine : Engine) (name : Bytes) (client : ℕ) (query : Bytes) (s : Source) :
    Source :=
  match s.live with
  | some _ => { s with query := query, waiting := some client }
  | none => { s with query := query, live := some (options engine name query) }

/-- The name is unpublished: a client that waits publishes it anew. -/
def Source.unpublish (engine : Engine) (name : Bytes) (s : Source) : Source :=
  match s.live, s.waiting with
  | none, _ => s
  | some _, none => { s with live := none, ended := true }
  | some _, some _ =>
    { s with live := some (options engine name s.query), waiting := none, ended := true }

/-- One event, for all names. -/
def sourceStep (engine : Engine) (sources : Bytes → Source) : Event → Bytes → Source
  | .publish client name query =>
    Function.update sources name ((sources name).publish engine name client query)
  | .unpublish _ name => Function.update sources name ((sources name).unpublish engine name)
  | .releaseStream _ => sources

/-- Before the first event. -/
def noSources : Bytes → Source := fun _ => ⟨none, none, [], false⟩

/-- The flags of a packaged stream: audio and video. -/
def Part.flags : Part → Bool × Bool
  | .stream => (true, true)
  | .audio => (true, false)
  | .video => (false, true)

/-- A packaged stream records a part of a source for its event. -/
structure Recording (part : Part) (name : Bytes) (o : Options) (r : Recorder) : Prop where
  /-- It is assigned to the event. -/
  liveEvent : r.liveEvent = o.liveEventName
  /-- It records in the mode asked for. -/
  record : r.record = some o.recordMode
  /-- It plays the source. -/
  play : r.play = some name
  /-- It takes what the part consists of. -/
  flags : (r.receiveAudio, r.receiveVideo) = part.flags

/-- A packaged stream does nothing. -/
structure Recorder.Idle (r : Recorder) : Prop where
  /-- It is assigned to no event. -/
  liveEvent : r.liveEvent = []
  /-- It does not record. -/
  record : r.record = none
  /-- It plays nothing. -/
  play : r.play = none

/-- What is packaged, by source and part: the name it is packaged under and
the options. -/
abbrev Held := Bytes → Part → Option (Bytes × Options)

/-- What the sources ask for. -/
def held (sources : Bytes → Source) : Held := fun name part =>
  (sources name).live.bind fun o => (o.target name part).map fun target => (target, o)

/-- The arrays and the packaged streams are as described, when every target
is used for one part of one source. -/
structure Packages (owner : Bytes → Bytes × Part) (h : Held) (app : App) : Prop where
  /-- The arrays hold the packaged streams. -/
  table : ∀ n p, (app.table p n).join = (h n p).map fun v => packaged v.1
  /-- The packaged streams of the sources record them. -/
  recording : ∀ n p t o, h n p = some (t, o) → Recording p n o (app.recorders (packaged t))
  /-- All other packaged streams do nothing. -/
  idle : ∀ t, (∀ n p o, h n p ≠ some (t, o)) → (app.recorders (packaged t)).Idle
  /-- The flags are as at the start or as the part needs them. -/
  flags : ∀ t, ((app.recorders (packaged t)).receiveAudio,
    (app.recorders (packaged t)).receiveVideo) ∈ [(true, true), (owner t).2.flags]
  /-- The targets belong to their sources. -/
  owner : ∀ n p t o, h n p = some (t, o) → owner t = (n, p)

variable {owner : Bytes → Bytes × Part} {h : Held} {target : Bytes}

/-- Nothing else matters to it. -/
theorem Packages.congr (hp : Packages owner h app) (htable : app'.table = app.table)
    (hrecorders : app'.recorders = app.recorders) : Packages owner h app' := by
  refine ⟨?_, ?_, ?_, ?_, hp.owner⟩
  · rw [htable]
    exact hp.table
  · rw [hrecorders]
    exact hp.recording
  · rw [hrecorders]
    exact hp.idle
  · rw [hrecorders]
    exact hp.flags

/-- What is packaged, with another value for one part of a source. -/
def Held.set (h : Held) (name : Bytes) (part : Part) (v : Option (Bytes × Options)) : Held :=
  Function.update h name (Function.update (h name) part v)

/-- One part has the new value, the others keep theirs. -/
theorem Held.set_apply (v : Option (Bytes × Options)) (n : Bytes) (p : Part) :
    h.set name part v n p = if n = name ∧ p = part then v else h n p := by
  rw [Held.set]
  by_cases hn : n = name
  · subst hn
    by_cases hp : p = part <;> simp [hp]
  · simp [hn]

/-- A packaged stream that is started takes what its part consists of. -/
theorem Recorder.start_flags {r : Recorder}
    (hflags : (r.receiveAudio, r.receiveVideo) ∈ [(true, true), part.flags]) :
    ((r.start engine part target name o).receiveAudio,
      (r.start engine part target name o).receiveVideo) = part.flags := by
  cases part with
  | stream => simpa [Part.flags, Recorder.start, Recorder.receive] using hflags
  | audio => rfl
  | video => rfl

/-- A part that is not packaged yet is packaged under a target of its own. -/
theorem Packages.package (hp : Packages owner h app) (hnone : h name part = none)
    (howner : owner target = (name, part))
    (hrecords : engine.records (packaged target) o.recordMode = true) :
    Packages owner (h.set name part (some (target, o)))
      (package engine part name target o app) := by
  have hown : ∀ n p o', h n p ≠ some (target, o') := by
    intro n p o' hh
    obtain ⟨rfl, rfl⟩ := Prod.mk.inj ((hp.owner n p target o' hh).symm.trans howner)
    rw [hnone] at hh
    cases hh
  have hrecorder : ∀ t, (LivePackager.package engine part name target o app).recorders
      (packaged t) = if t = target then
        Recorder.start engine part target name o (app.recorders (packaged target))
      else app.recorders (packaged t) := by
    intro t
    simp only [LivePackager.package, App.assign, App.recorders_modifyRecorder,
      packaged_injective.eq_iff]
  refine ⟨fun n p => ?_, fun n p t o' hh => ?_, fun t ht => ?_, fun t => ?_, fun n p t o' hh => ?_⟩
  · rw [LivePackager.package, App.table_assign, Held.set_apply]
    by_cases hnp : p = part ∧ n = name
    · rw [if_pos hnp, if_pos hnp.symm]
      rfl
    · rw [if_neg hnp, if_neg fun hpn => hnp hpn.symm]
      exact hp.table n p
  · rw [hrecorder]
    rw [Held.set_apply] at hh
    split_ifs at hh with hnp
    · obtain ⟨rfl, rfl⟩ := Prod.mk.inj (Option.some.inj hh)
      obtain ⟨rfl, rfl⟩ := hnp
      rw [if_pos rfl]
      have hflags := hp.flags target
      rw [howner] at hflags
      exact ⟨rfl, if_pos hrecords, rfl, Recorder.start_flags hflags⟩
    · have hne : t ≠ target := by
        rintro rfl
        exact hown n p o' hh
      rw [if_neg hne]
      exact hp.recording n p t o' hh
  · have hne : t ≠ target := by
      rintro rfl
      exact ht name part o (by rw [Held.set_apply, if_pos ⟨rfl, rfl⟩])
    rw [hrecorder, if_neg hne]
    refine hp.idle t fun n p o' hh => ht n p o' ?_
    rw [Held.set_apply, if_neg ?_]
    · exact hh
    · rintro ⟨rfl, rfl⟩
      rw [hnone] at hh
      cases hh
  · rw [hrecorder]
    split_ifs with ht
    · subst ht
      have hflags := hp.flags t
      rw [howner] at hflags ⊢
      rw [Recorder.start_flags hflags]
      exact List.mem_cons_of_mem _ (List.mem_singleton_self _)
    · exact hp.flags t
  · rw [Held.set_apply] at hh
    split_ifs at hh with hnp
    · obtain ⟨rfl, rfl⟩ := Prod.mk.inj (Option.some.inj hh)
      rw [howner, hnp.1, hnp.2]
    · exact hp.owner n p t o' hh

/-- A part that is released. -/
def releaseTo (part : Part) (name : Bytes) (app : App) : App :=
  match (app.table part name).join with
  | some f4f =>
    addToClear (packaged name) ((app.modifyRecorder f4f Recorder.stop).assign part name none)
  | none => app

/-- A name that is no array property is released without an exception. -/
theorem releasePart_eq (h : engine.inherited name = false) :
    releasePart engine part name app = .ok (releaseTo part name app) := by
  rw [releasePart, releaseTo]
  cases app.table part name with
  | none => simp [h]
  | some v => cases v <;> rfl

/-- A stream that is to be cleared stays in the arrays. -/
theorem table_addToClear (x : Bytes) : (addToClear x app).table = app.table := by
  rw [addToClear]
  split_ifs <;> rfl

/-- The packaged streams are not touched. -/
theorem recorders_addToClear (x : Bytes) : (addToClear x app).recorders = app.recorders := by
  rw [addToClear]
  split_ifs <;> rfl

/-- A part that is released is not packaged any more. -/
theorem Packages.release (hp : Packages owner h app) (name : Bytes) (part : Part) :
    Packages owner (h.set name part none) (releaseTo part name app) := by
  have htable := hp.table name part
  cases hh : h name part with
  | none =>
    have hsame : h.set name part none = h := by
      funext n p
      rw [Held.set_apply]
      split_ifs with hnp
      · rw [hnp.1, hnp.2, hh]
      · rfl
    rw [hh] at htable
    rw [hsame, releaseTo, htable]
    exact hp
  | some v =>
    obtain ⟨target, o⟩ := v
    rw [hh] at htable
    rw [releaseTo, htable]
    have howner := hp.owner name part target o hh
    have hrecorder : ∀ t, ((app.modifyRecorder (packaged target) Recorder.stop).assign part name
        none).recorders (packaged t) = if t = target then
          (app.recorders (packaged target)).stop else app.recorders (packaged t) := by
      intro t
      simp only [App.assign, App.recorders_modifyRecorder, packaged_injective.eq_iff]
    refine Packages.congr ?_ (table_addToClear _) (recorders_addToClear _)
    refine ⟨fun n p => ?_, fun n p t o' hset => ?_, fun t ht => ?_, fun t => ?_,
      fun n p t o' hset => ?_⟩
    · rw [App.table_assign, Held.set_apply]
      by_cases hnp : p = part ∧ n = name
      · rw [if_pos hnp, if_pos hnp.symm]
        rfl
      · rw [if_neg hnp, if_neg fun hpn => hnp hpn.symm]
        exact hp.table n p
    · rw [Held.set_apply] at hset
      split_ifs at hset with hnp
      have hne : t ≠ target := by
        rintro rfl
        have hother := hp.owner n p t o' hset
        rw [howner] at hother
        exact hnp ⟨(Prod.mk.inj hother).1.symm, (Prod.mk.inj hother).2.symm⟩
      rw [hrecorder, if_neg hne]
      exact hp.recording n p t o' hset
    · rw [hrecorder]
      split_ifs with htarget
      · exact ⟨rfl, rfl, rfl⟩
      · refine hp.idle t fun n p o' hother => ht n p o' ?_
        rw [Held.set_apply, if_neg ?_]
        · exact hother
        · rintro ⟨rfl, rfl⟩
          rw [hh] at hother
          exact htarget (Prod.mk.inj (Option.some.inj hother)).1.symm
    · rw [hrecorder]
      split_ifs with htarget
      · rw [htarget]
        exact hp.flags target
      · exact hp.flags t
    · rw [Held.set_apply] at hset
      split_ifs at hset with hnp
      exact hp.owner n p t o' hset

/-- Every target of a query string belongs to its source, and it can be got
and recorded. -/
def Granted (engine : Engine) (owner : Bytes → Bytes × Part) (name query : Bytes) : Prop :=
  ∀ part target, (options engine name query).target name part = some target →
    owner target = (name, part) ∧ engine.get (packaged target) = true ∧
      engine.records (packaged target) (options engine name query).recordMode = true

/-- Two states agree outside of the arrays and the packaged streams. -/
structure Agrees (app app' : App) : Prop where
  /-- The streams that clients publish. -/
  publications : app'.publications = app.publications
  /-- What is to be cleared. -/
  toclear : app'.toclear = app.toclear
  /-- The setting. -/
  clearOnAppStop : app'.clearOnAppStop = app.clearOnAppStop
  /-- The clients that were disconnected. -/
  disconnected : app'.disconnected = app.disconnected
  /-- The exceptions. -/
  threw : app'.threw = app.threw

theorem Agrees.refl (app : App) : Agrees app app := ⟨rfl, rfl, rfl, rfl, rfl⟩

/-- Agreement is transitive. -/
theorem Agrees.trans {app'' : App} (h : Agrees app app') (h' : Agrees app' app'') :
    Agrees app app'' :=
  ⟨h'.publications.trans h.publications, h'.toclear.trans h.toclear,
    h'.clearOnAppStop.trans h.clearOnAppStop, h'.disconnected.trans h.disconnected,
    h'.threw.trans h.threw⟩

variable {query : Bytes}

/-- A part that the options name is packaged, when its target is granted. -/
theorem Packages.packageTo (hp : Packages owner h app) (part : Part) (hnone : h name part = none)
    (hgranted : Granted engine owner name query) (ho : o = options engine name query) :
    ∃ app', packageTo engine part name o app = .ok app' ∧
      Packages owner (h.set name part ((o.target name part).map fun t => (t, o))) app' ∧
        Agrees app app' := by
  subst ho
  rw [LivePackager.packageTo]
  cases htarget : (options engine name query).target name part with
  | none =>
    have hsame : h.set name part none = h := by
      funext n p
      rw [Held.set_apply]
      split_ifs with hnp
      · rw [hnp.1, hnp.2, hnone]
      · rfl
    refine ⟨app, rfl, ?_, Agrees.refl app⟩
    rw [Option.map_none, hsame]
    exact hp
  | some target =>
    obtain ⟨howner, hget, hrecords⟩ := hgranted part target htarget
    exact ⟨_, if_pos hget, hp.package hnone howner hrecords, rfl, rfl, rfl, rfl, rfl⟩

/-- What is packaged, with other values for all parts of a source. -/
theorem Held.set_parts (f : Part → Option (Bytes × Options)) :
    ((h.set name .stream (f .stream)).set name .audio (f .audio)).set name .video (f .video) =
      Function.update h name f := by
  funext n p
  by_cases hn : n = name
  · subst hn
    cases p <;> simp [Held.set_apply]
  · simp [Held.set_apply, hn]

/-- onPublish packages a stream that is not published yet, with all parts
that its query string asks for. -/
theorem Packages.publish (hp : Packages owner h app) (client : ℕ) (hnone : ∀ p, h name p = none)
    (hfresh : (app.publications name).publishing = false)
    (hgranted : Granted engine owner name (app.publications name).publishQueryString)
    (ho : o = options engine name (app.publications name).publishQueryString) :
    ∃ app', onPublish engine client name app = .ok app' ∧
      Packages owner (Function.update h name fun p => (o.target name p).map fun t => (t, o)) app' ∧
        Agrees (app.modify name fun p => { p with publishing := true }) app' := by
  obtain ⟨howner, hget, -⟩ := hgranted .stream name rfl
  have hidle : (app.recorders (packaged name)).Idle := by
    refine hp.idle name fun n p o' hh => ?_
    obtain ⟨rfl, rfl⟩ := Prod.mk.inj ((hp.owner n p name o' hh).symm.trans howner)
    rw [hnone] at hh
    cases hh
  have hmodified : Packages owner h (app.modify name fun p => { p with publishing := true }) :=
    hp.congr rfl rfl
  obtain ⟨first, hfirst, hpfirst, hagrees⟩ :=
    hmodified.packageTo .stream (hnone .stream) hgranted ho
  obtain ⟨second, hsecond, hpsecond, hagrees'⟩ := hpfirst.packageTo .audio
    (by rw [Held.set_apply, if_neg (by simp), hnone]) hgranted ho
  obtain ⟨third, hthird, hpthird, hagrees''⟩ := hpsecond.packageTo .video
    (by rw [Held.set_apply, if_neg (by simp), Held.set_apply, if_neg (by simp), hnone]) hgranted ho
  refine ⟨third, ?_, ?_, hagrees.trans (hagrees'.trans hagrees'')⟩
  · rw [onPublish_eq hfresh hget ho (Or.inl hidle.liveEvent), hfirst]
    dsimp only [Except.bind]
    rw [hsecond]
    exact hthird
  · rw [← Held.set_parts]
    exact hpthird

/-- What releasing parts of a stream leaves alone, and that the stream is to
be cleared when some of them were packaged. -/
structure Released (name : Bytes) (some : Prop) (app app' : App) : Prop where
  /-- The streams that clients publish. -/
  publications : app'.publications = app.publications
  /-- The setting. -/
  clearOnAppStop : app'.clearOnAppStop = app.clearOnAppStop
  /-- The clients that were disconnected. -/
  disconnected : app'.disconnected = app.disconnected
  /-- The exceptions. -/
  threw : app'.threw = app.threw
  /-- What is to be cleared. -/
  toclear : ∀ x, x ∈ app'.toclear ↔
    x ∈ app.toclear ∨ (app.clearOnAppStop = true ∧ some ∧ x = packaged name)

/-- Parts are released one after the other. -/
theorem Released.trans {a b : Prop} {app'' : App} (h : Released name a app app')
    (h' : Released name b app' app'') : Released name (a ∨ b) app app'' := by
  refine ⟨h'.publications.trans h.publications, h'.clearOnAppStop.trans h.clearOnAppStop,
    h'.disconnected.trans h.disconnected, h'.threw.trans h.threw, fun x => ?_⟩
  rw [h'.toclear, h.toclear, h.clearOnAppStop]
  tauto

/-- Releasing a part that is packaged. -/
theorem Packages.released (hp : Packages owner h app) (name : Bytes) (part : Part) :
    Released name (h name part ≠ none) app (releaseTo part name app) := by
  have htable := hp.table name part
  rw [releaseTo, htable]
  cases hh : h name part with
  | none => exact ⟨rfl, rfl, rfl, rfl, fun x => by simp⟩
  | some v =>
    dsimp only [Option.map_some]
    refine ⟨?_, ?_, ?_, ?_, fun x => ?_⟩
    · rw [addToClear]
      split_ifs <;> rfl
    · rw [addToClear]
      split_ifs <;> rfl
    · rw [addToClear]
      split_ifs <;> rfl
    · rw [addToClear]
      split_ifs <;> rfl
    · simp [mem_toclear_addToClear, App.assign, App.modifyRecorder]

/-- The three releases of onUnpublish. -/
theorem Packages.unpublish (hp : Packages owner h app)
    (hinherited : engine.inherited name = false) :
    ∃ app', ((releasePart engine .stream name app).bind (releasePart engine .audio name)).bind
        (releasePart engine .video name) = .ok app' ∧
      Packages owner (Function.update h name fun _ => none) app' ∧
        Released name (∃ part, h name part ≠ none) app app' := by
  have hfirst := hp.release name .stream
  have hsecond := hfirst.release name .audio
  have hthird := (hp.released name .stream).trans
    ((hfirst.released name .audio).trans (hsecond.released name .video))
  refine ⟨releaseTo .video name (releaseTo .audio name (releaseTo .stream name app)), ?_, ?_, ?_⟩
  · simp only [releasePart_eq hinherited, Except.bind]
  · rw [← Held.set_parts]
    exact hsecond.release name .video
  · have hany : (h name .stream ≠ none ∨ h.set name .stream none name .audio ≠ none ∨
        (h.set name .stream none).set name .audio none name .video ≠ none) ↔
          ∃ part, h name part ≠ none := by
      simp only [Held.set_apply, reduceCtorEq, and_false, if_false]
      exact ⟨fun ha => ha.elim (⟨_, ·⟩) fun ha => ha.elim (⟨_, ·⟩) (⟨_, ·⟩),
        fun ⟨part, ha⟩ => by cases part <;> simp [ha]⟩
    rw [← hany]
    exact hthird

/-- A step that is no surprise: a stream whose name is no method of arrays is
published with targets of its own, or unpublished, or a client releases a
stream that is no packaged one. -/
def Regular (engine : Engine) (owner : Bytes → Bytes × Part) : Event → Prop
  | .publish _ name query => engine.inherited name = false ∧ Granted engine owner name query
  | .unpublish _ name => engine.inherited name = false
  | .releaseStream streamstr => ∀ target, upTo (byte '?') streamstr ≠ packaged target

/-- The packager does what its users see. -/
structure Refines (owner : Bytes → Bytes × Part) (clear : Bool) (sources : Bytes → Source)
    (app : App) : Prop where
  /-- The streams are published and waited for. -/
  publications : ∀ n, app.publications n =
    ⟨(sources n).live.isSome, (sources n).waiting, (sources n).query⟩
  /-- What the sources ask for is packaged. -/
  packages : Packages owner (held sources) app
  /-- The setting is as at the start. -/
  clearOnAppStop : app.clearOnAppStop = clear
  /-- The sources that were unpublished are to be cleared. -/
  toclear : ∀ x, x ∈ app.toclear ↔ clear = true ∧ ∃ n, (sources n).ended = true ∧ x = packaged n
  /-- Nobody was disconnected. -/
  disconnected : app.disconnected = []
  /-- Nothing was thrown. -/
  threw : app.threw = false

/-- A client only waits for a source that is live, and its query string is
granted. -/
def Waits (engine : Engine) (owner : Bytes → Bytes × Part) (sources : Bytes → Source) : Prop :=
  ∀ n, (sources n).waiting ≠ none →
    (sources n).live ≠ none ∧ Granted engine owner n (sources n).query

variable {sources : Bytes → Source}

/-- A regular event keeps clients waiting for live sources only. -/
theorem waits_step (hw : Waits engine owner sources) (hr : Regular engine owner e) :
    Waits engine owner (sourceStep engine sources e) := by
  intro n hn
  cases e with
  | releaseStream streamstr => exact hw n hn
  | publish client name query =>
    rw [sourceStep] at hn ⊢
    by_cases hname : n = name
    · subst hname
      rw [Function.update_self] at hn ⊢
      rw [Source.publish] at hn ⊢
      cases hlive : (sources n).live with
      | none =>
        rw [hlive] at hn
        exact absurd hlive (hw n hn).1
      | some o =>
        exact ⟨by simp, hr.2⟩
    · rw [Function.update_of_ne hname] at hn ⊢
      exact hw n hn
  | unpublish client name =>
    rw [sourceStep] at hn ⊢
    by_cases hname : n = name
    · subst hname
      rw [Function.update_self] at hn ⊢
      rw [Source.unpublish] at hn ⊢
      cases hlive : (sources n).live with
      | none =>
        rw [hlive] at hn
        exact absurd hlive (hw n hn).1
      | some o =>
        rw [hlive] at hn
        cases hwaiting : (sources n).waiting with
        | none =>
          rw [hwaiting] at hn
          exact absurd rfl hn
        | some client =>
          rw [hwaiting] at hn
          exact absurd rfl hn
    · rw [Function.update_of_ne hname] at hn ⊢
      exact hw n hn

/-- What the sources ask for when one of them changes. -/
theorem held_update (s : Source) : held (Function.update sources name s) =
    Function.update (held sources) name fun p =>
      s.live.bind fun o => (o.target name p).map fun target => (target, o) := by
  funext n p
  by_cases hn : n = name
  · subst hn
    simp [held]
  · simp [held, hn]

/-- The sources that were unpublished, with one that may be new among them. -/
theorem exists_ended_update {s : Source} {new : Bool} (hs : s.ended = ((sources name).ended || new))
    (x : Bytes) : (∃ n, (Function.update sources name s n).ended = true ∧ x = packaged n) ↔
      (∃ n, (sources n).ended = true ∧ x = packaged n) ∨ (new = true ∧ x = packaged name) := by
  constructor
  · rintro ⟨n, hn, rfl⟩
    by_cases hname : n = name
    · subst hname
      rw [Function.update_self, hs, Bool.or_eq_true] at hn
      exact hn.imp (fun hold => ⟨n, hold, rfl⟩) fun hnew => ⟨hnew, rfl⟩
    · rw [Function.update_of_ne hname] at hn
      exact Or.inl ⟨n, hn, rfl⟩
  · rintro (⟨n, hn, rfl⟩ | ⟨hnew, rfl⟩)
    · refine ⟨n, ?_, rfl⟩
      by_cases hname : n = name
      · subst hname
        rw [Function.update_self, hs, hn, Bool.true_or]
      · rwa [Function.update_of_ne hname]
    · exact ⟨name, by rw [Function.update_self, hs, hnew, Bool.or_true], rfl⟩

/-- One source changes, and the packager with it. -/
theorem Refines.update {s : Source} {new : Bool} (hr : Refines owner clear sources app)
    (hpublications : app'.publications =
      Function.update app.publications name ⟨s.live.isSome, s.waiting, s.query⟩)
    (hpackages : Packages owner (Function.update (held sources) name fun p =>
      s.live.bind fun o => (o.target name p).map fun target => (target, o)) app')
    (hclear : app'.clearOnAppStop = app.clearOnAppStop)
    (hended : s.ended = ((sources name).ended || new))
    (htoclear : ∀ x, x ∈ app'.toclear ↔
      x ∈ app.toclear ∨ (clear = true ∧ new = true ∧ x = packaged name))
    (hdisconnected : app'.disconnected = app.disconnected) (hthrew : app'.threw = app.threw) :
    Refines owner clear (Function.update sources name s) app' := by
  refine ⟨fun n => ?_, ?_, hclear.trans hr.clearOnAppStop, fun x => ?_,
    hdisconnected.trans hr.disconnected, hthrew.trans hr.threw⟩
  · rw [hpublications]
    by_cases hn : n = name
    · subst hn
      rw [Function.update_self, Function.update_self]
    · rw [Function.update_of_ne hn, Function.update_of_ne hn, hr.publications]
  · rw [held_update]
    exact hpackages
  · rw [htoclear, hr.toclear, exists_ended_update hended, and_or_left]

/-- A publish event has the effect that is expected of it. -/
theorem Refines.publish (hr : Refines owner clear sources app)
    (hgranted : Granted engine owner name query) :
    ∃ app', handle engine app (.publish client name query) = .ok app' ∧
      Refines owner clear (sourceStep engine sources (.publish client name query)) app' := by
  rw [handle, sourceStep, Source.publish]
  have hpublished := hr.publications name
  have hset : Packages owner (held sources)
      (app.modify name fun p => { p with publishQueryString := query }) :=
    hr.packages.congr rfl rfl
  cases hlive : (sources name).live with
  | some o =>
    rw [hlive] at hpublished
    refine ⟨_, if_pos (by simp [hpublished]), ?_⟩
    refine hr.update ?_ ?_ rfl (Bool.or_false _).symm (fun x => by simp [App.modify]) rfl rfl
    · simp [App.modify, hpublished]
    · have hsame : (fun p => (some o).bind fun o =>
          (o.target name p).map fun target => (target, o)) = held sources name := by
        funext p
        rw [held, hlive]
      dsimp only
      rw [hsame, Function.update_eq_self]
      exact hset.congr rfl rfl
  | none =>
    rw [hlive] at hpublished
    have hnone : ∀ p, held sources name p = none := fun p => by rw [held, hlive]; rfl
    obtain ⟨app', hhandle, hpackages, hagrees⟩ := hset.publish client hnone
      (by simp [hpublished]) (by simpa using hgranted) rfl
    refine ⟨app', hhandle, hr.update ?_ ?_ hagrees.clearOnAppStop (Bool.or_false _).symm
      (fun x => ?_) hagrees.disconnected hagrees.threw⟩
    · rw [hagrees.publications]
      simp [App.modify, hpublished]
    · simpa using hpackages
    · rw [hagrees.toclear]
      simp [App.modify]

/-- So has the end of a stream. -/
theorem Refines.unpublish (hr : Refines owner clear sources app) (hw : Waits engine owner sources)
    (hinherited : engine.inherited name = false) :
    ∃ app', handle engine app (.unpublish client name) = .ok app' ∧
      Refines owner clear (sourceStep engine sources (.unpublish client name)) app' := by
  rw [handle, sourceStep, Source.unpublish, onUnpublish]
  obtain ⟨middle, hmiddle, hpackages, hreleased⟩ := hr.packages.unpublish hinherited
  have hpublished := hr.publications name
  rw [hmiddle]
  dsimp only [Except.bind]
  have hany : (∃ part, held sources name part ≠ none) ↔ (sources name).live ≠ none := by
    cases hlive : (sources name).live with
    | none => simp [held, hlive]
    | some o =>
      refine iff_of_true ⟨.stream, ?_⟩ (by simp)
      simp [held, hlive, Options.target]
  rw [hany, ← Option.isSome_iff_ne_none] at hreleased
  have htoclear : ∀ x, x ∈ middle.toclear ↔ x ∈ app.toclear ∨
      (clear = true ∧ (sources name).live.isSome = true ∧ x = packaged name) := by
    intro x
    rw [hreleased.toclear, hr.clearOnAppStop]
  have hempty : Packages owner (Function.update (held sources) name fun _ => none)
      (middle.modify name fun p => { p with publishing := false }) := hpackages.congr rfl rfl
  have hclient : ((middle.modify name fun p => { p with publishing := false }).publications
      name).publishingClient = (sources name).waiting := by
    simp [hreleased.publications, hpublished]
  simp only [resume, hclient]
  cases hwaiting : (sources name).waiting with
  | none =>
    cases hlive : (sources name).live with
    | none =>
      rw [hlive] at htoclear
      refine ⟨_, rfl, hr.update ?_ ?_ hreleased.clearOnAppStop (Bool.or_false _).symm htoclear
        hreleased.disconnected hreleased.threw⟩
      · simp [App.modify, hreleased.publications, hpublished, hlive, hwaiting]
      · rw [hlive]
        exact hempty
    | some o =>
      rw [hlive] at htoclear
      refine ⟨_, rfl, hr.update ?_ hempty hreleased.clearOnAppStop (Bool.or_true _).symm htoclear
        hreleased.disconnected hreleased.threw⟩
      simp [App.modify, hreleased.publications, hpublished, hwaiting]
  | some client =>
    obtain ⟨hne, hgranted⟩ := hw name (by simp [hwaiting])
    obtain ⟨o, hlive⟩ := Option.ne_none_iff_exists'.mp hne
    rw [hlive] at htoclear
    have hfresh : ((middle.modify name fun p => { p with publishing := false }).publications
        name).publishing = false := by simp
    have hquery : ((middle.modify name fun p => { p with publishing := false }).publications
        name).publishQueryString = (sources name).query := by
      simp [hreleased.publications, hpublished]
    obtain ⟨app', hpublish, hpackaged, hagrees⟩ := hempty.publish client
      (fun p => by rw [Function.update_self]) hfresh (by rw [hquery]; exact hgranted) rfl
    dsimp only
    rw [hpublish, hlive]
    refine ⟨_, rfl, hr.update ?_ ?_ (hagrees.clearOnAppStop.trans hreleased.clearOnAppStop)
      (Bool.or_true _).symm (fun x => ?_) (hagrees.disconnected.trans hreleased.disconnected)
      (hagrees.threw.trans hreleased.threw)⟩
    · simp [App.modify, hagrees.publications, hreleased.publications, hpublished]
    · rw [Function.update_idem, hquery] at hpackaged
      exact hpackaged.congr rfl rfl
    · have hmem : x ∈ app'.toclear ↔ x ∈ middle.toclear := by
        rw [hagrees.toclear]
        rfl
      exact hmem.trans (htoclear x)

/-- Releasing a stream that is no packaged one has no effect that is seen. -/
theorem Refines.releaseStream (hr : Refines owner clear sources app) {streamstr : Bytes}
    (hplain : ∀ target, upTo (byte '?') streamstr ≠ packaged target) :
    Refines owner clear sources (releaseStream engine streamstr app) := by
  rw [LivePackager.releaseStream]
  split_ifs
  · have hsame : ∀ t, (app.modifyRecorder (upTo (byte '?') streamstr)
        fun r => { r with play := none }).recorders (packaged t) = app.recorders (packaged t) := by
      intro t
      rw [App.recorders_modifyRecorder, if_neg fun he => hplain t he.symm]
    refine ⟨hr.publications, ⟨hr.packages.table, fun n p t o hh => ?_, fun t ht => ?_,
      fun t => ?_, hr.packages.owner⟩, hr.clearOnAppStop, hr.toclear, hr.disconnected, hr.threw⟩
    · rw [hsame]
      exact hr.packages.recording n p t o hh
    · rw [hsame]
      exact hr.packages.idle t ht
    · rw [hsame]
      exact hr.packages.flags t
  · exact hr

/-- A regular event has the effect that is expected of it. -/
theorem refines_step (hr : Refines owner clear sources app) (hw : Waits engine owner sources)
    (he : Regular engine owner e) :
    ∃ app', handle engine app e = .ok app' ∧
      Refines owner clear (sourceStep engine sources e) app' := by
  cases e with
  | publish client name query => exact hr.publish he.2
  | unpublish client name => exact hr.unpublish hw he
  | releaseStream streamstr => exact ⟨_, rfl, hr.releaseStream he⟩

/-- At the start nothing is asked for and nothing is packaged. -/
theorem refines_onAppStart (owner : Bytes → Bytes × Part) (clear : Bool) :
    Refines owner clear noSources (onAppStart clear) := by
  have hnone : ∀ n p, held noSources n p = none := fun n p => rfl
  refine ⟨fun n => rfl, ⟨fun n p => rfl, fun n p t o hh => ?_, fun t ht => ⟨rfl, rfl, rfl⟩,
    fun t => List.mem_cons_self, fun n p t o hh => ?_⟩, rfl, fun x => ?_, rfl, rfl⟩
  · rw [hnone] at hh
    cases hh
  · rw [hnone] at hh
    cases hh
  · simp [onAppStart, noSources]

/-- The sources after a run. -/
def sourcesAfter (engine : Engine) (es : List Event) : Bytes → Source :=
  es.foldl (sourceStep engine) noSources

/-- A run of regular events keeps refining the sources. -/
theorem refines_of_run_from (hr : Refines owner clear sources app)
    (hw : Waits engine owner sources) (hes : ∀ e ∈ es, Regular engine owner e)
    (hs : run (packagerStep engine) app es = some app') :
    Refines owner clear (es.foldl (sourceStep engine) sources) app' := by
  induction es generalizing sources app with
  | nil =>
    cases hs
    exact hr
  | cons e es ih =>
    obtain ⟨middle, hstep, hs⟩ := run_cons_eq_some hs
    have he := hes e List.mem_cons_self
    obtain ⟨next, hhandle, hnext⟩ := refines_step hr hw he
    rw [packagerStep, hhandle] at hstep
    obtain rfl := Option.some.inj hstep
    exact ih hnext (waits_step hw he) (fun e' he' => hes e' (List.mem_cons_of_mem e he')) hs

/-- The packager refines the sources in every run from the start of the
application. -/
theorem refines_of_run (hes : ∀ e ∈ es, Regular engine owner e)
    (hs : run (packagerStep engine) (onAppStart clear) es = some app) :
    Refines owner clear (sourcesAfter engine es) app :=
  refines_of_run_from (refines_onAppStart owner clear) (fun _ hn => absurd rfl hn) hes hs

/-- A server on which every stream can be got and recorded. Query strings
have no escapes. -/
def plainPackager : Engine where
  decode query := (query.splitOn (byte '&')).map fun nv =>
    (upTo (byte '=') nv, pastFirst (byte '=') nv)
  inherited name := [ascii "map", ascii "push", ascii "concat"].contains name
  get _ := true
  records _ _ := true

/-- A query string that asks for the audio alone as well. -/
def audioQuery : Bytes := ascii "adbe-live-event=show&adbe-audio-stream-name=mic"

/-- A stream that is published again before it is unpublished. -/
def republished : List Event :=
  [.publish 1 (ascii "cam") audioQuery, .publish 2 (ascii "cam") audioQuery,
    .unpublish 1 (ascii "cam")]

/-- The targets of that stream. -/
def camOwner (target : Bytes) : Bytes × Part :=
  if target = ascii "mic" then (ascii "cam", .audio) else (target, .stream)

/-- The events of the example are regular. -/
theorem regular_republished : ∀ e ∈ republished, Regular plainPackager camOwner e := by
  have hinherited : plainPackager.inherited (ascii "cam") = false := by decide +kernel
  have hoptions : options plainPackager (ascii "cam") audioQuery =
      ⟨ascii "show", [], ascii "mic", [], [], ascii "append"⟩ := by
    decide +kernel
  have hgranted : Granted plainPackager camOwner (ascii "cam") audioQuery := by
    intro part target htarget
    rw [hoptions] at htarget
    cases part with
    | stream =>
      obtain rfl := Option.some.inj htarget
      exact ⟨by decide +kernel, rfl, rfl⟩
    | audio =>
      obtain rfl : ascii "mic" = target := Option.some.inj htarget
      exact ⟨by decide +kernel, rfl, rfl⟩
    | video => cases htarget
  intro e he
  simp only [republished, List.mem_cons, List.not_mem_nil, or_false] at he
  rcases he with rfl | rfl | rfl
  · exact ⟨hinherited, hgranted⟩
  · exact ⟨hinherited, hgranted⟩
  · exact hinherited

/-- A name is published and, later in the run, unpublished. -/
def Ends (es : List Event) (name : Bytes) : Prop :=
  ∃ bs cs, es = bs ++ cs ∧ (∃ client query, .publish client name query ∈ bs) ∧
    ∃ client, .unpublish client name ∈ cs

/-- A name ends in a run when it did before the last event, or this event
unpublishes it. -/
theorem ends_append_singleton (es : List Event) (e : Event) (name : Bytes) :
    Ends (es ++ [e]) name ↔ Ends es name ∨
      ((∃ client query, .publish client name query ∈ es) ∧
        ∃ client, e = .unpublish client name) := by
  constructor
  · rintro ⟨bs, cs, hcut, hpublish, client, hunpublish⟩
    obtain rfl | ⟨cs, c, rfl⟩ := List.eq_nil_or_concat cs
    · cases hunpublish
    · rw [List.concat_eq_append] at hcut hunpublish
      rw [← List.append_assoc] at hcut
      obtain ⟨rfl, hlast⟩ := List.append_inj' hcut rfl
      obtain rfl := (List.cons.inj hlast).1
      rcases List.mem_append.mp hunpublish with hin | hin
      · exact Or.inl ⟨bs, cs, rfl, hpublish, client, hin⟩
      · refine Or.inr ⟨?_, client, (List.mem_singleton.mp hin).symm⟩
        obtain ⟨client', query, hin'⟩ := hpublish
        exact ⟨client', query, List.mem_append_left cs hin'⟩
  · rintro (⟨bs, cs, rfl, hpublish, client, hunpublish⟩ | ⟨hpublish, client, rfl⟩)
    · exact ⟨bs, cs ++ [e], List.append_assoc bs cs [e], hpublish, client,
        List.mem_append_left _ hunpublish⟩
    · exact ⟨es, _, rfl, hpublish, client, List.mem_singleton_self _⟩

/-- Publishing ends nothing. -/
theorem Source.ended_publish (s : Source) :
    (s.publish engine name client query).ended = s.ended := by
  rw [Source.publish]
  cases s.live <;> rfl

/-- A source is live after it was published. -/
theorem Source.live_publish (s : Source) :
    (s.publish engine name client query).live.isSome = true := by
  rw [Source.publish]
  cases hlive : s.live <;> simp

/-- A source that is live ends when it is unpublished. -/
theorem Source.ended_unpublish (s : Source) : (s.unpublish engine name).ended = true ↔
    s.live.isSome = true ∨ s.ended = true := by
  rw [Source.unpublish]
  cases hlive : s.live with
  | none => simp
  | some o => cases s.waiting <;> simp

/-- A source that was seen stays so. -/
theorem Source.seen_unpublish (s : Source) :
    (s.unpublish engine name).live.isSome = true ∨ (s.unpublish engine name).ended = true ↔
      s.live.isSome = true ∨ s.ended = true := by
  rw [Source.unpublish]
  cases hlive : s.live with
  | none => simp [hlive]
  | some o => cases s.waiting <;> simp

/-- The sources after one event more. -/
theorem sourcesAfter_append_singleton (engine : Engine) (es : List Event) (e : Event) :
    sourcesAfter engine (es ++ [e]) = sourceStep engine (sourcesAfter engine es) e := by
  rw [sourcesAfter, List.foldl_append]
  rfl

/-- A name is live or has ended as soon as it was published. -/
theorem seen_iff (engine : Engine) (es : List Event) (name : Bytes) :
    (sourcesAfter engine es name).live.isSome = true ∨
        (sourcesAfter engine es name).ended = true ↔
      ∃ client query, .publish client name query ∈ es := by
  induction es using List.reverseRecOn with
  | nil => simp [sourcesAfter, noSources]
  | append_singleton es e ih =>
    rw [sourcesAfter_append_singleton]
    simp only [List.mem_append, List.mem_singleton, exists_or, ← ih]
    cases e with
    | releaseStream streamstr => simp [sourceStep]
    | publish client n query =>
      by_cases hn : name = n
      · subst hn
        simp [sourceStep, Source.live_publish]
      · simp [sourceStep, hn]
    | unpublish client n =>
      by_cases hn : name = n
      · subst hn
        simp [sourceStep, Source.seen_unpublish]
      · simp [sourceStep, hn]

/-- It has ended when it was unpublished after that. -/
theorem ended_iff (engine : Engine) (es : List Event) (name : Bytes) :
    (sourcesAfter engine es name).ended = true ↔ Ends es name := by
  induction es using List.reverseRecOn with
  | nil =>
    refine iff_of_false (by simp [sourcesAfter, noSources]) ?_
    rintro ⟨bs, cs, hcut, ⟨client, query, hin⟩, -⟩
    rw [(List.append_eq_nil_iff.mp hcut.symm).1] at hin
    cases hin
  | append_singleton es e ih =>
    rw [sourcesAfter_append_singleton, ends_append_singleton, ← ih, ← seen_iff engine]
    cases e with
    | releaseStream streamstr => simp [sourceStep]
    | publish client n query =>
      by_cases hn : name = n
      · subst hn
        simp [sourceStep, Source.ended_publish]
      · simp [sourceStep, hn]
    | unpublish client n =>
      by_cases hn : name = n
      · subst hn
        simp [sourceStep, Source.ended_unpublish]
        tauto
      · simp [sourceStep, hn, Ne.symm hn]

end VideooServer.LivePackager

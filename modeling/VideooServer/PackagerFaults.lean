import VideooServer.PackagerRuns

/-!
# What goes wrong in the packager

Two faults of the livepkgr application, over runs of any events. A client is
only disconnected because another source packages its audio or its video
under the name that the client publishes. A stream with the name of an array
method is published once and for all: what is kept under its name cannot be
told from the method, so its end is never noticed.
-/

namespace VideooServer.LivePackager

open ByteText StepRuns

variable {engine : Engine} {app app' : App} {part : Part} {name n : Bytes} {o : Options}
  {client : ℕ} {e : Event} {es : List Event} {clear : Bool}

/-- What holds where a handler has thrown or returned holds at the end of two
handlers when the second one keeps it. -/
theorem left_bind {P : App → Prop} {r : Except App App} {f : App → Except App App}
    (hr : P (left r)) (hf : ∀ app, r = .ok app → P app → P (left (f app))) :
    P (left (r.bind f)) := by
  cases r with
  | error app => exact hr
  | ok app => exact hf app rfl hr

/-- So it is for a function of what the first one has returned. -/
theorem left_map {P : App → Prop} {r : Except App App} {f : App → App} (hr : P (left r))
    (hf : ∀ app, P app → P (f app)) : P (left (r.map f)) := by
  cases r with
  | error app => exact hr
  | ok app => exact hf app hr

theorem left_ok (app : App) : left (.ok app) = app := rfl

/-- Some source packages its audio or its video under a name. -/
def Clash (engine : Engine) (es : List Event) (name : Bytes) : Prop :=
  ∃ client n query part, .publish client n query ∈ es ∧ part ≠ .stream ∧
    (options engine n query).target n part = some name

/-- What is known of the clients and of the packaged streams in a run. -/
structure Accounts (engine : Engine) (es : List Event) (app : App) : Prop where
  /-- Query strings come from publish requests. -/
  query : ∀ n, (app.publications n).publishQueryString = [] ∨
    ∃ client, .publish client n (app.publications n).publishQueryString ∈ es
  /-- So do the clients that wait. -/
  waiting : ∀ n client, (app.publications n).publishingClient = some client →
    ∃ query, .publish client n query ∈ es
  /-- A stream is packaged under its own name. -/
  own : ∀ n f4f, app.table .stream n = some (some f4f) → f4f = packaged n
  /-- A packaged stream with an event is that of a stream that is published,
  or its name is used for another source. -/
  event : ∀ n, (app.recorders (packaged n)).liveEvent ≠ [] → Clash engine es n ∨
    ((app.publications n).publishing = true ∧ app.table .stream n = some (some (packaged n)))
  /-- Clients are disconnected because of such names. -/
  rejected : ∀ client ∈ app.disconnected,
    ∃ n query, .publish client n query ∈ es ∧ Clash engine es n

/-- A name is published and, as an array property, not used for some part. -/
def Stuck (n : Bytes) (app : App) : Prop :=
  (app.publications n).publishing = true ∧ ∃ part, app.table part n = none

/-- A name is neither published nor used. -/
def Unused (n : Bytes) (app : App) : Prop :=
  (app.publications n).publishing = false ∧ ∀ part, app.table part n = none

/-- Two states agree on a name. -/
def SameAt (n : Bytes) (app app' : App) : Prop :=
  app'.publications n = app.publications n ∧ ∀ part, app'.table part n = app.table part n

theorem SameAt.refl (n : Bytes) (app : App) : SameAt n app app := ⟨rfl, fun _ => rfl⟩

/-- Agreement is transitive. -/
theorem SameAt.trans {app'' : App} (h : SameAt n app app') (h' : SameAt n app' app'') :
    SameAt n app app'' :=
  ⟨h'.1.trans h.1, fun part => (h'.2 part).trans (h.2 part)⟩

/-- Stuck names stay stuck in states that agree. -/
theorem SameAt.stuck (h : SameAt n app app') (hs : Stuck n app) : Stuck n app' := by
  obtain ⟨hpublishing, part, hpart⟩ := hs
  exact ⟨by rw [h.1, hpublishing], part, (h.2 part).trans hpart⟩

/-- Unused names stay unused. -/
theorem SameAt.unused (h : SameAt n app app') (hu : Unused n app) : Unused n app' :=
  ⟨by rw [h.1, hu.1], fun part => (h.2 part).trans (hu.2 part)⟩

/-- Only one name is modified. -/
theorem sameAt_modify (hn : n ≠ name) (f : Publication → Publication) :
    SameAt n app (app.modify name f) :=
  ⟨by rw [App.publications_modify, if_neg hn], fun _ => rfl⟩

/-- Packaging concerns no other name. -/
theorem sameAt_package {target : Bytes} (hn : n ≠ name) :
    SameAt n app (package engine part name target o app) :=
  ⟨rfl, fun p => by
    rw [package, App.table_assign, if_neg fun h => hn h.2]
    rfl⟩

/-- Nor does packaging what the options name. -/
theorem sameAt_packageTo (hn : n ≠ name) :
    SameAt n app (left (packageTo engine part name o app)) := by
  rw [packageTo]
  cases o.target name part with
  | none => exact SameAt.refl n app
  | some target =>
    dsimp only
    split_ifs
    · exact sameAt_package hn
    · exact SameAt.refl n app

/-- What onPublish does, case by case. -/
theorem onPublish_cases (engine : Engine) (client : ℕ) (name : Bytes) (app : App) :
    ((app.publications name).publishing = true ∧ onPublish engine client name app =
        .ok (app.modify name fun p => { p with publishingClient := some client })) ∨
      ((app.publications name).publishing = false ∧ onPublish engine client name app =
        .ok (app.modify name fun p => { p with publishing := true })) ∨
      ((app.publications name).publishing = false ∧
        (app.recorders (packaged name)).liveEvent ≠ [] ∧ onPublish engine client name app =
          .ok { app.modify name fun p => { p with publishing := true } with
            disconnected := client :: app.disconnected }) ∨
      ((app.publications name).publishing = false ∧ onPublish engine client name app =
        ((packageTo engine .stream name (options engine name
          (app.publications name).publishQueryString)
            (app.modify name fun p => { p with publishing := true })).bind
          (packageTo engine .audio name (options engine name
            (app.publications name).publishQueryString))).bind
          (packageTo engine .video name (options engine name
            (app.publications name).publishQueryString))) := by
  cases hpublishing : (app.publications name).publishing with
  | true => exact Or.inl ⟨rfl, if_pos hpublishing⟩
  | false =>
    refine Or.inr ?_
    cases hget : engine.get (packaged name) with
    | false => exact Or.inl ⟨rfl, by simp [onPublish, hpublishing, hget]⟩
    | true =>
      refine Or.inr ?_
      by_cases hevent : (app.recorders (packaged name)).liveEvent = [] ∨
          (app.recorders (packaged name)).liveEvent =
            (options engine name (app.publications name).publishQueryString).liveEventName
      · exact Or.inr ⟨rfl, onPublish_eq hpublishing hget rfl hevent⟩
      · rw [not_or] at hevent
        refine Or.inl ⟨rfl, hevent.1, ?_⟩
        simp [onPublish, hpublishing, hget, App.modify, hevent]

/-- The last case of onPublish at another name. -/
theorem sameAt_parts (hn : n ≠ name) : SameAt n app (left
    (((packageTo engine .stream name o app).bind (packageTo engine .audio name o)).bind
      (packageTo engine .video name o))) :=
  left_bind (P := SameAt n app)
    (left_bind (P := SameAt n app) (sameAt_packageTo hn) fun _ _ h => h.trans (sameAt_packageTo hn))
    fun _ _ h => h.trans (sameAt_packageTo hn)

/-- Publishing concerns no other name. -/
theorem sameAt_onPublish (hn : n ≠ name) (client : ℕ) :
    SameAt n app (left (onPublish engine client name app)) := by
  obtain ⟨-, h⟩ | ⟨-, h⟩ | ⟨-, -, h⟩ | ⟨-, h⟩ := onPublish_cases engine client name app
  · rw [h, left_ok]
    exact sameAt_modify hn _
  · rw [h, left_ok]
    exact sameAt_modify hn _
  · rw [h, left_ok]
    have hset : SameAt n app (app.modify name fun p => { p with publishing := true }) :=
      sameAt_modify hn _
    exact ⟨hset.1, hset.2⟩
  · rw [h]
    exact (sameAt_modify hn _).trans (sameAt_parts hn)

/-- What releasePart does when it returns. -/
theorem releasePart_ok (h : releasePart engine part name app = .ok app') :
    (app' = app ∧ ∀ f4f, app.table part name ≠ some (some f4f)) ∨
      ∃ f4f, app.table part name = some (some f4f) ∧ app' = addToClear (packaged name)
        ((app.modifyRecorder f4f Recorder.stop).assign part name none) := by
  rw [releasePart] at h
  cases ht : app.table part name with
  | none =>
    rw [ht] at h
    dsimp only at h
    split_ifs at h
    exact Or.inl ⟨(Except.ok.inj h).symm, fun _ => by simp⟩
  | some v =>
    rw [ht] at h
    cases v with
    | none => exact Or.inl ⟨(Except.ok.inj h).symm, fun _ => by simp⟩
    | some f4f => exact Or.inr ⟨f4f, rfl, (Except.ok.inj h).symm⟩

/-- When it throws, it has done nothing. -/
theorem releasePart_error (h : releasePart engine part name app = .error app') :
    app' = app := by
  rw [releasePart] at h
  split at h
  · cases h
  · cases h
  · split_ifs at h
    exact (Except.error.inj h).symm

/-- Noting a stream that is to be cleared concerns no publication. -/
theorem publications_addToClear (x : Bytes) :
    (addToClear x app).publications = app.publications := by
  rw [addToClear]
  split_ifs <;> rfl

/-- Nobody is disconnected by it. -/
theorem disconnected_addToClear (x : Bytes) :
    (addToClear x app).disconnected = app.disconnected := by
  rw [addToClear]
  split_ifs <;> rfl

/-- When it returns, only one property of one array has changed, and it is
there. -/
theorem releasePart_frame (hinherited : engine.inherited name = true)
    (h : releasePart engine part name app = .ok app') :
    app'.publications = app.publications ∧ app.table part name ≠ none ∧
      ∀ p, p ≠ part → app'.table p name = app.table p name := by
  have hown : app.table part name ≠ none := by
    intro hnone
    rw [releasePart, hnone] at h
    simp [hinherited] at h
  obtain ⟨rfl, -⟩ | ⟨f4f, -, rfl⟩ := releasePart_ok h
  · exact ⟨rfl, hown, fun _ _ => rfl⟩
  · refine ⟨publications_addToClear _, hown, fun p hp => ?_⟩
    rw [table_addToClear, App.table_assign, if_neg fun hpn => hp hpn.1]
    rfl

/-- Releasing a part concerns no other name. -/
theorem sameAt_releasePart (hn : n ≠ name) :
    SameAt n app (left (releasePart engine part name app)) := by
  cases h : releasePart engine part name app with
  | error app' =>
    obtain rfl := releasePart_error h
    exact SameAt.refl n app'
  | ok app' =>
    obtain ⟨rfl, -⟩ | ⟨f4f, -, rfl⟩ := releasePart_ok h
    · exact SameAt.refl n app'
    · refine ⟨congrFun (publications_addToClear _) n, fun p => ?_⟩
      rw [left, table_addToClear, App.table_assign, if_neg fun hpn => hn hpn.2]
      rfl

/-- Unpublishing concerns no other name. -/
theorem sameAt_onUnpublish (hn : n ≠ name) : SameAt n app (left (onUnpublish engine name app)) := by
  rw [onUnpublish]
  refine left_bind (P := SameAt n app) (left_bind (P := SameAt n app) (left_bind
    (P := SameAt n app) (sameAt_releasePart hn) fun _ _ h => h.trans (sameAt_releasePart hn))
      fun _ _ h => h.trans (sameAt_releasePart hn)) fun middle _ h => h.trans ?_
  have hidle : SameAt n middle (middle.modify name fun p => { p with publishing := false }) :=
    sameAt_modify hn _
  rw [resume]
  split
  · exact hidle
  · exact left_map (P := SameAt n middle) (hidle.trans (sameAt_onPublish hn _))
      fun _ h => h.trans (sameAt_modify hn _)

/-- The end of a stuck stream is not noticed. -/
theorem onUnpublish_stuck (hinherited : engine.inherited n = true) (h : Stuck n app) :
    ∃ app', onUnpublish engine n app = .error app' ∧ Stuck n app' := by
  obtain ⟨hpublishing, part, hpart⟩ := h
  rw [onUnpublish]
  cases hfirst : releasePart engine .stream n app with
  | error app' =>
    obtain rfl := releasePart_error hfirst
    exact ⟨app', rfl, hpublishing, part, hpart⟩
  | ok first =>
    obtain ⟨hpub, hne, hother⟩ := releasePart_frame hinherited hfirst
    have hstream : part ≠ .stream := by
      rintro rfl
      exact hne hpart
    rw [← hother part hstream] at hpart
    rw [← hpub] at hpublishing
    dsimp only [Except.bind]
    cases hsecond : releasePart engine .audio n first with
    | error app' =>
      obtain rfl := releasePart_error hsecond
      exact ⟨app', rfl, hpublishing, part, hpart⟩
    | ok second =>
      obtain ⟨hpub', hne', hother'⟩ := releasePart_frame hinherited hsecond
      have haudio : part ≠ .audio := by
        rintro rfl
        exact hne' hpart
      rw [← hother' part haudio] at hpart
      rw [← hpub'] at hpublishing
      dsimp only
      cases hthird : releasePart engine .video n second with
      | error app' =>
        obtain rfl := releasePart_error hthird
        exact ⟨app', rfl, hpublishing, part, hpart⟩
      | ok third =>
        have hvideo : part = .video := by
          cases part with
          | stream => exact absurd rfl hstream
          | audio => exact absurd rfl haudio
          | video => rfl
        rw [hvideo] at hpart
        exact absurd hpart (releasePart_frame hinherited hthird).2.1

/-- A published stream stays published when it is published again. -/
theorem onPublish_of_publishing (h : (app.publications name).publishing = true) :
    onPublish engine client name app =
      .ok (app.modify name fun p => { p with publishingClient := some client }) := if_pos h

/-- Packaging a part does not use the others. -/
theorem table_packageTo (engine : Engine) (name : Bytes) (o : Options) (app : App) {p : Part}
    (hp : p ≠ part) :
    (left (packageTo engine part name o app)).table p name = app.table p name ∧
      (left (packageTo engine part name o app)).publications = app.publications := by
  rw [packageTo]
  cases o.target name part with
  | none => exact ⟨rfl, rfl⟩
  | some target =>
    dsimp only
    split_ifs
    · refine ⟨?_, rfl⟩
      rw [left_ok, package, App.table_assign, if_neg fun h => hp h.1]
      rfl
    · exact ⟨rfl, rfl⟩

/-- Nor does it use a part without a target. -/
theorem table_packageTo_of_none (h : o.target name part = none) :
    packageTo engine part name o app = .ok app := by
  rw [packageTo, h]

/-- After onPublish a name without own properties is stuck, when its query
string does not ask for the audio and the video alone. -/
theorem Unused.onPublish (h : Unused name app)
    (hpart : ∃ part, (options engine name (app.publications name).publishQueryString).target name
      part = none) (client : ℕ) :
    Stuck name (left (onPublish engine client name app)) := by
  obtain ⟨part, hpart⟩ := hpart
  have hmodified : ((app.modify name fun p => { p with publishing := true }).publications
      name).publishing = true := by simp
  obtain ⟨htrue, -⟩ | ⟨-, heq⟩ | ⟨-, -, heq⟩ | ⟨-, heq⟩ :=
    onPublish_cases engine client name app
  · rw [h.1] at htrue
    cases htrue
  · rw [heq, left_ok]
    exact ⟨hmodified, part, h.2 part⟩
  · rw [heq, left_ok]
    exact ⟨hmodified, part, h.2 part⟩
  · rw [heq]
    let P := fun app' : App =>
      (app'.publications name).publishing = true ∧ app'.table part name = none
    have hkeep : ∀ (p : Part) (app' : App), P app' → P (left (packageTo engine p name
        (options engine name (app.publications name).publishQueryString) app')) := by
      intro p app' happ
      by_cases hp : part = p
      · rw [← hp, table_packageTo_of_none hpart]
        exact happ
      · obtain ⟨htable, hpublications⟩ := table_packageTo engine name (options engine name
          (app.publications name).publishQueryString) app' hp
        exact ⟨by rw [hpublications, happ.1], htable.trans happ.2⟩
    have hall : P (left (((packageTo engine .stream name (options engine name
        (app.publications name).publishQueryString)
          (app.modify name fun p => { p with publishing := true })).bind
        (packageTo engine .audio name (options engine name
          (app.publications name).publishQueryString))).bind
        (packageTo engine .video name (options engine name
          (app.publications name).publishQueryString)))) :=
      left_bind (left_bind (hkeep .stream _ ⟨hmodified, h.2 part⟩) fun _ _ h => hkeep .audio _ h)
        fun _ _ h => hkeep .video _ h
    exact ⟨hall.1, part, hall.2⟩

/-- A stuck name stays stuck. -/
theorem stuck_step (hinherited : engine.inherited n = true) (h : Stuck n app)
    (hs : packagerStep engine app e = some app') : Stuck n app' := by
  obtain rfl := Option.some.inj hs
  cases e with
  | publish client name query =>
    rw [handle]
    by_cases hn : n = name
    · subst hn
      rw [onPublish_of_publishing (by simpa using h.1), left_ok]
      exact ⟨by simpa using h.1, h.2⟩
    · exact ((sameAt_modify hn _).trans (sameAt_onPublish hn client)).stuck h
  | unpublish client name =>
    rw [handle]
    by_cases hn : n = name
    · subst hn
      obtain ⟨app', herror, hstuck⟩ := onUnpublish_stuck hinherited h
      rw [herror]
      exact hstuck
    · exact (sameAt_onUnpublish hn).stuck h
  | releaseStream streamstr =>
    rw [handle, left_ok, releaseStream]
    split_ifs
    · exact h
    · exact h

/-- A name that is not used stays so until it is published. -/
theorem unused_step (hinherited : engine.inherited n = true) (h : Unused n app)
    (hs : packagerStep engine app e = some app')
    (he : ∀ client query, e ≠ .publish client n query) :
    Unused n app' := by
  obtain rfl := Option.some.inj hs
  cases e with
  | publish client name query =>
    have hn : n ≠ name := by
      rintro rfl
      exact he client query rfl
    exact ((sameAt_modify hn _).trans (sameAt_onPublish hn client)).unused h
  | unpublish client name =>
    rw [handle]
    by_cases hn : n = name
    · subst hn
      have herror : onUnpublish engine n app = .error app := by
        simp [onUnpublish, releasePart, h.2 .stream, hinherited, Except.bind]
      rw [herror]
      exact h
    · exact (sameAt_onUnpublish hn).unused h
  | releaseStream streamstr =>
    rw [handle, left_ok, releaseStream]
    split_ifs
    · exact h
    · exact h

/-- A publish request that does not ask for the audio and the video alone
gets an unused name stuck. -/
theorem stuck_of_unused (h : Unused n app) {query : Bytes}
    (hpart : ∃ part, (options engine n query).target n part = none)
    (hs : packagerStep engine app (.publish client n query) = some app') : Stuck n app' := by
  obtain rfl := Option.some.inj hs
  have hset : Unused n (app.modify n fun p => { p with publishQueryString := query }) :=
    ⟨by simpa using h.1, h.2⟩
  exact hset.onPublish (by simpa using hpart) client

/-- A stream has the name of an array method, and its query string does not
ask for both the audio and the video alone. Once it is published it stays
published, and its end always throws. -/
theorem packager_stuck (hinherited : engine.inherited n = true)
    (hparts : ∀ client query, .publish client n query ∈ es →
      ∃ part, (options engine n query).target n part = none)
    (hs : run (packagerStep engine) (onAppStart clear) es = some app)
    (hpublished : ∃ client query, .publish client n query ∈ es) :
    (app.publications n).publishing = true ∧
      ∀ client, ∃ app', handle engine app (.unpublish client n) = .error app' ∧
        (app'.publications n).publishing = true := by
  have hstuck : ∀ es app, Unused n app → (∀ client query, .publish client n query ∈ es →
      ∃ part, (options engine n query).target n part = none) →
        ∀ app', run (packagerStep engine) app es = some app' →
          (∃ client query, .publish client n query ∈ es) → Stuck n app' := by
    intro es
    induction es with
    | nil =>
      rintro app - - app' - ⟨client, query, hin⟩
      cases hin
    | cons e es ih =>
      intro app hunused hparts app' hs hpublished
      obtain ⟨middle, hstep, hrest⟩ := run_cons_eq_some hs
      by_cases he : ∃ client query, e = .publish client n query
      · obtain ⟨client, query, rfl⟩ := he
        have hmiddle := stuck_of_unused hunused (hparts client query List.mem_cons_self) hstep
        exact run_invariant (P := Stuck n)
          (fun _ _ _ hbefore hafter => stuck_step hinherited hbefore hafter) hmiddle hrest
      · have he' : ∀ client query, e ≠ .publish client n query :=
          fun client query heq => he ⟨client, query, heq⟩
        refine ih middle (unused_step hinherited hunused hstep he')
          (fun client query hin => hparts client query (List.mem_cons_of_mem e hin)) app' hrest ?_
        obtain ⟨client, query, hin⟩ := hpublished
        rcases List.mem_cons.mp hin with heq | hin
        · exact absurd heq.symm (he' client query)
        · exact ⟨client, query, hin⟩
  have hend := hstuck es _ ⟨rfl, fun _ => rfl⟩ hparts app hs hpublished
  refine ⟨hend.1, fun client => ?_⟩
  obtain ⟨app', herror, hstill⟩ := onUnpublish_stuck hinherited hend
  exact ⟨app', herror, hstill.1⟩

/-- A stream with the name of an array method that is published, unpublished
and published again. -/
def methodName : List Event :=
  [.publish 1 (ascii "map") [], .unpublish 1 (ascii "map"), .publish 2 (ascii "map") []]

/-- The name of an array method stays published when it is unpublished. -/
theorem packager_stuck_map : ∃ app,
    run (packagerStep plainPackager) (onAppStart true) methodName = some app ∧
      (app.publications (ascii "map")).publishing = true := by
  have hruns : (run (packagerStep plainPackager) (onAppStart true) methodName).isSome = true := rfl
  obtain ⟨app, hs⟩ := Option.isSome_iff_exists.mp hruns
  have hparts : ∀ client query, .publish client (ascii "map") query ∈ methodName →
      ∃ part, (options plainPackager (ascii "map") query).target (ascii "map") part = none := by
    intro client query hin
    have hquery : query = [] := by
      simp [methodName] at hin
      rcases hin with hin | hin <;> exact hin.2
    rw [hquery]
    exact ⟨.audio, rfl⟩
  have hinherited : plainPackager.inherited (ascii "map") = true := by decide +kernel
  exact ⟨app, hs, (packager_stuck hinherited hparts hs ⟨1, [], List.mem_cons_self⟩).1⟩

/-- A query string that is known does not ask for a part under a name unless
a publish request does. -/
theorem clash_of_target {query target : Bytes}
    (hquery : query = [] ∨ ∃ client, .publish client name query ∈ es) (hpart : part ≠ .stream)
    (htarget : (options engine name query).target name part = some target) :
    Clash engine es target := by
  rcases hquery with rfl | ⟨client, hin⟩
  · cases part with
    | stream => exact absurd rfl hpart
    | audio => simp [options, Options.target] at htarget
    | video => simp [options, Options.target] at htarget
  · exact ⟨client, name, query, part, hin, hpart, htarget⟩

/-- Packaging a part keeps the accounts when it is the stream or a clash. -/
theorem Accounts.package (h : Accounts engine es app) {target : Bytes}
    (htarget : o.target name part = some target)
    (hpublishing : (app.publications name).publishing = true)
    (hclash : part ≠ .stream → Clash engine es target) :
    Accounts engine es (package engine part name target o app) := by
  refine ⟨h.query, h.waiting, fun m f4f hm => ?_, fun m hm => ?_, h.rejected⟩
  · rw [LivePackager.package, App.table_assign] at hm
    split_ifs at hm with hmn
    · obtain ⟨rfl, rfl⟩ := hmn
      rw [← Option.some.inj (Option.some.inj hm), ← Option.some.inj htarget]
    · exact h.own m f4f hm
  · rw [LivePackager.package, App.table_assign]
    by_cases htm : m = target
    · subst htm
      by_cases hpart : part = .stream
      · subst hpart
        obtain rfl := Option.some.inj htarget
        exact Or.inr ⟨hpublishing, if_pos ⟨rfl, rfl⟩⟩
      · exact Or.inl (hclash hpart)
    · have hsame : (LivePackager.package engine part name target o app).recorders (packaged m) =
          app.recorders (packaged m) := by
        simp only [LivePackager.package, App.assign, App.recorders_modifyRecorder,
          packaged_injective.eq_iff, if_neg htm]
      rw [hsame] at hm
      refine (h.event m hm).imp id fun hkept => ⟨hkept.1, ?_⟩
      rw [if_neg ?_]
      · exact hkept.2
      · rintro ⟨rfl, rfl⟩
        exact htm (Option.some.inj htarget)

/-- So does an exception. -/
theorem Accounts.throw (h : Accounts engine es app) : Accounts engine es (left (.error app)) :=
  ⟨h.query, h.waiting, h.own, h.event, h.rejected⟩

/-- A packaged stream has an event only where a name is used for another
source. -/
def Silent (engine : Engine) (es : List Event) (name : Bytes) (app : App) : Prop :=
  (app.recorders (packaged name)).liveEvent ≠ [] → Clash engine es name

/-- The properties of a stream may be set to what publish requests ask for,
and it may end when its packaged stream has no event. -/
theorem Accounts.modify (h : Accounts engine es app) (f : Publication → Publication)
    (hquery : (f (app.publications name)).publishQueryString = [] ∨
      ∃ client, .publish client name (f (app.publications name)).publishQueryString ∈ es)
    (hwaiting : ∀ client, (f (app.publications name)).publishingClient = some client →
      ∃ query, .publish client name query ∈ es)
    (hpublishing : (app.publications name).publishing = true →
      (f (app.publications name)).publishing = true ∨ Silent engine es name app) :
    Accounts engine es (app.modify name f) := by
  refine ⟨fun m => ?_, fun m client hm => ?_, h.own, fun m hm => ?_, h.rejected⟩
  · rw [App.publications_modify]
    split_ifs with hmn
    · rw [hmn]
      exact hquery
    · exact h.query m
  · rw [App.publications_modify] at hm
    split_ifs at hm with hmn
    · rw [hmn]
      exact hwaiting client hm
    · exact h.waiting m client hm
  · rw [App.publications_modify]
    split_ifs with hmn
    · subst hmn
      rcases h.event m hm with hclash | ⟨hbefore, htable⟩
      · exact Or.inl hclash
      · rcases hpublishing hbefore with hafter | hsilent
        · exact Or.inr ⟨hafter, htable⟩
        · exact Or.inl (hsilent hm)
    · exact h.event m hm

/-- A part is packaged as the known query string asks for it. -/
theorem Accounts.packageTo (h : Accounts engine es app)
    (hpublishing : (app.publications name).publishing = true) (part : Part)
    (ho : o = options engine name (app.publications name).publishQueryString) :
    Accounts engine es (left (packageTo engine part name o app)) ∧
      (left (packageTo engine part name o app)).publications = app.publications := by
  rw [LivePackager.packageTo]
  cases htarget : o.target name part with
  | none => exact ⟨h, rfl⟩
  | some target =>
    dsimp only
    split_ifs
    · refine ⟨h.package htarget hpublishing fun hpart => ?_, rfl⟩
      rw [ho] at htarget
      exact clash_of_target (h.query name) hpart htarget
    · exact ⟨h.throw, rfl⟩

/-- onPublish keeps the accounts, for a client that asks for it. -/
theorem Accounts.onPublish (h : Accounts engine es app)
    (hclient : ∃ query, .publish client name query ∈ es) :
    Accounts engine es (left (onPublish engine client name app)) := by
  have hset : Accounts engine es (app.modify name fun p => { p with publishing := true }) :=
    h.modify _ (h.query name) (h.waiting name) fun _ => Or.inl rfl
  obtain ⟨hpublishing, heq⟩ | ⟨-, heq⟩ | ⟨hfresh, hevent, heq⟩ | ⟨-, heq⟩ :=
    onPublish_cases engine client name app
  · rw [heq, left_ok]
    refine h.modify _ (h.query name) (fun waiting hw => ?_) Or.inl
    rw [← Option.some.inj hw]
    exact hclient
  · rw [heq, left_ok]
    exact hset
  · rw [heq, left_ok]
    refine ⟨hset.query, hset.waiting, hset.own, hset.event, fun c hc => ?_⟩
    rcases List.mem_cons.mp hc with rfl | hc
    · obtain ⟨query, hin⟩ := hclient
      refine ⟨name, query, hin, (h.event name hevent).resolve_right fun hkept => ?_⟩
      rw [hfresh] at hkept
      cases hkept.1
    · exact h.rejected c hc
  · rw [heq]
    let P := fun app' : App => Accounts engine es app' ∧
      (app'.publications name).publishing = true ∧
        (app'.publications name).publishQueryString = (app.publications name).publishQueryString
    have hkeep : ∀ (part : Part) (app' : App), P app' → P (left (LivePackager.packageTo engine part
        name (options engine name (app.publications name).publishQueryString) app')) := by
      rintro part app' ⟨haccounts, hpublishing, hquery⟩
      have ho : options engine name (app.publications name).publishQueryString =
          options engine name (app'.publications name).publishQueryString := by rw [hquery]
      obtain ⟨hnext, hsame⟩ := haccounts.packageTo hpublishing part ho
      exact ⟨hnext, by rw [hsame, hpublishing], by rw [hsame, hquery]⟩
    have hall := left_bind (left_bind (hkeep .stream _ ⟨hset, by simp, by simp⟩)
      fun _ _ happ => hkeep .audio _ happ) fun _ _ happ => hkeep .video _ happ
    exact hall.1

/-- A release that returns keeps the accounts, and the packaged stream of the
name has no event after that of the whole stream. -/
theorem Accounts.release (h : Accounts engine es app)
    (hok : releasePart engine part name app = .ok app') :
    Accounts engine es app' ∧ (part = .stream ∨ Silent engine es name app →
      Silent engine es name app') := by
  obtain ⟨rfl, hnone⟩ | ⟨f4f, hsome, rfl⟩ := releasePart_ok hok
  · refine ⟨h, fun hpart hevent => ?_⟩
    rcases hpart with rfl | hsilent
    · refine (h.event name hevent).resolve_right fun hkept => ?_
      exact hnone _ hkept.2
    · exact hsilent hevent
  · -- Stopping a packaged stream leaves no event on it, and the others alone.
    have hevent : ∀ m, (((app.modifyRecorder f4f Recorder.stop).assign part name none).recorders
        (packaged m)).liveEvent ≠ [] → packaged m ≠ f4f ∧
          (app.recorders (packaged m)).liveEvent ≠ [] := by
      intro m hm
      simp only [App.assign, App.recorders_modifyRecorder] at hm
      split_ifs at hm with hmf
      · exact absurd rfl hm
      · exact ⟨hmf, hm⟩
    refine ⟨⟨?_, ?_, ?_, ?_, ?_⟩, fun hpart hm => ?_⟩
    · rw [publications_addToClear]
      exact h.query
    · rw [publications_addToClear]
      exact h.waiting
    · intro m g hm
      rw [table_addToClear, App.table_assign] at hm
      split_ifs at hm
      · cases hm
      · exact h.own m g hm
    · intro m hm
      rw [recorders_addToClear] at hm
      obtain ⟨hne, hold⟩ := hevent m hm
      rw [publications_addToClear, table_addToClear, App.table_assign]
      refine (h.event m hold).imp id fun hkept => ⟨hkept.1, ?_⟩
      rw [if_neg ?_]
      · exact hkept.2
      · rintro ⟨rfl, rfl⟩
        rw [hsome] at hkept
        exact hne (Option.some.inj (Option.some.inj hkept.2)).symm
    · rw [disconnected_addToClear]
      exact h.rejected
    · rw [recorders_addToClear] at hm
      obtain ⟨hne, hold⟩ := hevent name hm
      rcases hpart with rfl | hsilent
      · exact absurd (h.own name f4f hsome).symm hne
      · exact hsilent hold

/-- onUnpublish keeps the accounts. -/
theorem Accounts.onUnpublish (h : Accounts engine es app) :
    Accounts engine es (left (onUnpublish engine name app)) := by
  rw [LivePackager.onUnpublish]
  cases hfirst : releasePart engine .stream name app with
  | error app' =>
    obtain rfl := releasePart_error hfirst
    exact h.throw
  | ok first =>
    obtain ⟨haccounts, hsilent⟩ := h.release hfirst
    dsimp only [Except.bind]
    cases hsecond : releasePart engine .audio name first with
    | error app' =>
      obtain rfl := releasePart_error hsecond
      exact haccounts.throw
    | ok second =>
      obtain ⟨haccounts', hsilent'⟩ := haccounts.release hsecond
      dsimp only
      cases hthird : releasePart engine .video name second with
      | error app' =>
        obtain rfl := releasePart_error hthird
        exact haccounts'.throw
      | ok third =>
        obtain ⟨haccounts'', hsilent''⟩ := haccounts'.release hthird
        have hend := hsilent'' (Or.inr (hsilent' (Or.inr (hsilent (Or.inl rfl)))))
        have hidle :
            Accounts engine es (third.modify name fun p => { p with publishing := false }) :=
          haccounts''.modify _ (haccounts''.query name) (haccounts''.waiting name)
            fun _ => Or.inr hend
        dsimp only
        rw [resume]
        split
        · exact hidle
        · rename_i client hclient
          refine left_map (hidle.onPublish (hidle.waiting name client hclient)) fun last hlast => ?_
          refine hlast.modify _ (hlast.query name) (fun _ hnone => ?_) Or.inl
          cases hnone

/-- Every event of the run keeps them. -/
theorem accounts_step (h : Accounts engine es app) (he : e ∈ es)
    (hs : packagerStep engine app e = some app') : Accounts engine es app' := by
  obtain rfl := Option.some.inj hs
  cases e with
  | publish client name query =>
    have hset :
        Accounts engine es (app.modify name fun p => { p with publishQueryString := query }) :=
      h.modify _ (Or.inr ⟨client, he⟩) (h.waiting name) Or.inl
    exact hset.onPublish ⟨query, he⟩
  | unpublish client name => exact h.onUnpublish
  | releaseStream streamstr =>
    rw [handle, left_ok, releaseStream]
    split_ifs
    · refine ⟨h.query, h.waiting, h.own, fun m hm => h.event m ?_, h.rejected⟩
      rw [App.recorders_modifyRecorder] at hm
      split_ifs at hm with hname
      · rwa [hname]
      · exact hm
    · exact h

/-- A source that packages its audio under the name of another stream. -/
def twoSources : List Event :=
  [.publish 1 (ascii "cam") (ascii "adbe-audio-stream-name=mic"), .publish 2 (ascii "mic") []]

end VideooServer.LivePackager

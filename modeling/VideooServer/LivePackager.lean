import VideooServer.ByteText
import VideooServer.StepRuns

/-!
# Packaging live streams

The livepkgr application records every published stream into a packaged one,
with "f4f:" in front of its name, and on request its audio and its video into
packaged streams of their own. What it records from a stream is kept in three
arrays under the name of the stream, and released when the stream is
unpublished. A stream that is published again before it is unpublished waits
for that. Names of array properties that are no methods are left out.
-/

namespace VideooServer.LivePackager

open ByteText StepRuns

/-- What a handler knows of a stream that is published. -/
structure Publication where
  /-- Whether it has been published and not unpublished. -/
  publishing : Bool
  /-- The client whose publish request waits. -/
  publishingClient : Option ℕ
  /-- Query string it is published with, empty when there is none. -/
  publishQueryString : Bytes
  deriving DecidableEq

/-- A packaged stream. -/
structure Recorder where
  /-- The event it is assigned to, empty when there is none. -/
  liveEvent : Bytes
  /-- Whether it takes the audio. -/
  receiveAudio : Bool
  /-- Whether it takes the video. -/
  receiveVideo : Bool
  /-- The mode in which it records. -/
  record : Option Bytes
  /-- The stream that it plays. -/
  play : Option Bytes
  deriving DecidableEq

/-- What is packaged of a stream: everything, its audio or its video. -/
inductive Part where
  | stream
  | audio
  | video
  deriving DecidableEq

/-- The application. Streams are found under their names, and the arrays s, a
and v hold for a name a packaged stream or null, or have no such property. -/
structure App where
  /-- The streams that clients publish. -/
  publications : Bytes → Publication
  /-- The packaged streams. -/
  recorders : Bytes → Recorder
  /-- The three arrays. -/
  table : Part → Bytes → Option (Option Bytes)
  /-- Names of the streams to clear. -/
  toclear : List Bytes
  /-- The setting with this name. -/
  clearOnAppStop : Bool
  /-- The clients whose connection was closed. -/
  disconnected : List ℕ
  /-- Some handler has thrown an exception that nothing catches. -/
  threw : Bool

/-- What the script engine contributes. -/
structure Engine where
  /-- The pairs that LoadVars decodes from a query string. -/
  decode : Bytes → List (Bytes × Bytes)
  /-- The names that a lookup finds in every array, without an own entry. -/
  inherited : Bytes → Bool
  /-- The names under which Stream.get finds or makes a stream. -/
  get : Bytes → Bool
  /-- Whether a stream can be recorded in a mode. -/
  records : Bytes → Bytes → Bool

/-- What happens to the application. -/
inductive Event where
  /-- A client publishes a stream with a query string. -/
  | publish (client : ℕ) (name query : Bytes)
  /-- A stream is unpublished. -/
  | unpublish (client : ℕ) (name : Bytes)
  /-- A client calls releaseStream. -/
  | releaseStream (streamstr : Bytes)
  deriving DecidableEq

/-- The name of the stream that a name is packaged under. -/
def packaged (name : Bytes) : Bytes := ascii "f4f:" ++ name

/-- What the query string asks for. -/
structure Options where
  /-- The event. -/
  liveEventName : Bytes
  /-- The stream that the audio is taken from, empty for this one. -/
  audioStreamSrc : Bytes
  /-- The name to package the audio under, empty for none. -/
  audioStreamName : Bytes
  /-- The stream that the video is taken from, empty for this one. -/
  videoStreamSrc : Bytes
  /-- The name to package the video under, empty for none. -/
  videoStreamName : Bytes
  /-- The mode to record in. -/
  recordMode : Bytes
  deriving DecidableEq

/-- One pass of the loop over the decoded pairs. -/
def Options.assign (o : Options) (nv : Bytes × Bytes) : Options :=
  if nv.1 = ascii "adbe-live-event" then { o with liveEventName := nv.2 }
  else if nv.1 = ascii "adbe-audio-stream-src" then { o with audioStreamSrc := nv.2 }
  else if nv.1 = ascii "adbe-audio-stream-name" then { o with audioStreamName := nv.2 }
  else if nv.1 = ascii "adbe-video-stream-src" then { o with videoStreamSrc := nv.2 }
  else if nv.1 = ascii "adbe-video-stream-name" then { o with videoStreamName := nv.2 }
  else if nv.1 = ascii "adbe-record-mode" then { o with recordMode := nv.2 }
  else o

/-- The options of a stream. Without a query string its name is the event. -/
def options (engine : Engine) (name query : Bytes) : Options :=
  let o : Options := ⟨name, [], [], [], [], ascii "append"⟩
  if query = [] then o else (engine.decode query).foldl Options.assign o

/-- Assign to properties of a stream that is published. -/
def App.modify (app : App) (name : Bytes) (f : Publication → Publication) : App :=
  { app with
    publications := Function.update app.publications name (f (app.publications name)) }

/-- Assign to properties of a packaged stream. -/
def App.modifyRecorder (app : App) (f4f : Bytes) (f : Recorder → Recorder) : App :=
  { app with recorders := Function.update app.recorders f4f (f (app.recorders f4f)) }

/-- Assign to a property of one of the arrays. -/
def App.assign (app : App) (part : Part) (name : Bytes) (f4f : Option Bytes) : App :=
  { app with
    table := Function.update app.table part
      (Function.update (app.table part) name (some f4f)) }

/-- The flags that are set for audio or video only. -/
def Recorder.receive (r : Recorder) : Part → Recorder
  | .stream => r
  | .audio => { r with receiveAudio := true, receiveVideo := false }
  | .video => { r with receiveAudio := false, receiveVideo := true }

/-- What onPublish does to a packaged stream: the flags, the event, record
and play. -/
def Recorder.start (engine : Engine) (part : Part) (target name : Bytes) (o : Options)
    (r : Recorder) : Recorder :=
  { r.receive part with
    liveEvent := o.liveEventName
    record := if engine.records (packaged target) o.recordMode then some o.recordMode else r.record
    play := some name }

/-- What onUnpublish does to it. -/
def Recorder.stop (r : Recorder) : Recorder :=
  { r with record := none, play := none, liveEvent := [] }

/-- Package a part of a stream under a target and keep the packaged stream
under the name of the stream. -/
def package (engine : Engine) (part : Part) (name target : Bytes) (o : Options) (app : App) :
    App :=
  (app.modifyRecorder (packaged target) (Recorder.start engine part target name o)).assign part
    name (some (packaged target))

/-- The branch of onPublish for the audio or the video alone. A stream that
cannot be got is undefined and has no properties to set. -/
def packagePart (engine : Engine) (part : Part) (name streamName streamSrc : Bytes) (o : Options)
    (app : App) : Except App App :=
  if streamName ≠ [] then
    let src := if streamSrc = [] then name else streamSrc
    if src = name then
      if engine.get (packaged streamName) then .ok (package engine part name streamName o app)
      else .error app
    else .ok app
  else .ok app

/-- application.onPublish. -/
def onPublish (engine : Engine) (client : ℕ) (name : Bytes) (app : App) : Except App App :=
  if (app.publications name).publishing then
    .ok (app.modify name fun p => { p with publishingClient := some client })
  else
    let app := app.modify name fun p => { p with publishing := true }
    let o := options engine name (app.publications name).publishQueryString
    if !engine.get (packaged name) then .ok app
    else
      let liveEvent := (app.recorders (packaged name)).liveEvent
      if liveEvent ≠ [] ∧ liveEvent ≠ o.liveEventName then
        .ok { app with disconnected := client :: app.disconnected }
      else
        (packagePart engine .audio name o.audioStreamName o.audioStreamSrc o
          (package engine .stream name name o app)).bind
            (packagePart engine .video name o.videoStreamName o.videoStreamSrc o)

/-- application.addToClear. -/
def addToClear (streamName : Bytes) (app : App) : App :=
  if app.clearOnAppStop && !app.toclear.contains streamName then
    { app with toclear := app.toclear ++ [streamName] }
  else app

/-- The branch of onUnpublish for one of the arrays. An inherited method is
found for a name without an own property, and it has no method record. -/
def releasePart (engine : Engine) (part : Part) (name : Bytes) (app : App) : Except App App :=
  match app.table part name with
  | some (some f4f) =>
    .ok (addToClear (packaged name) ((app.modifyRecorder f4f Recorder.stop).assign part name none))
  | some none => .ok app
  | none => if engine.inherited name then .error app else .ok app

/-- The end of onUnpublish: call onPublish when it was suspended. -/
def resume (engine : Engine) (name : Bytes) (app : App) : Except App App :=
  let app := app.modify name fun p => { p with publishing := false }
  match (app.publications name).publishingClient with
  | none => .ok app
  | some client =>
    (onPublish engine client name app).map fun app =>
      app.modify name fun p => { p with publishingClient := none }

/-- application.onUnpublish. -/
def onUnpublish (engine : Engine) (name : Bytes) (app : App) : Except App App :=
  (((releasePart engine .stream name app).bind (releasePart engine .audio name)).bind
    (releasePart engine .video name)).bind (resume engine name)

/-- Client.prototype.releaseStream. -/
def releaseStream (engine : Engine) (streamstr : Bytes) (app : App) : App :=
  let streamname := upTo (byte '?') streamstr
  if engine.get streamname then app.modifyRecorder streamname fun r => { r with play := none }
  else app

/-- The streams that application.onAppStop clears. -/
def onAppStop (engine : Engine) (app : App) : List Bytes :=
  if app.clearOnAppStop then app.toclear.filter engine.get else []

/-- application.onAppStart. Streams that nobody has used take audio and
video. -/
def onAppStart (clearOnAppStop : Bool) : App where
  publications _ := ⟨false, none, []⟩
  recorders _ := ⟨[], true, true, none, none⟩
  table _ _ := none
  toclear := []
  clearOnAppStop := clearOnAppStop
  disconnected := []
  threw := false

/-- The handler of an event. The server sets the query string of a stream
before it calls onPublish. -/
def handle (engine : Engine) (app : App) : Event → Except App App
  | .publish client name query =>
    onPublish engine client name
      (app.modify name fun p => { p with publishQueryString := query })
  | .unpublish _ name => onUnpublish engine name app
  | .releaseStream streamstr => .ok (releaseStream engine streamstr app)

/-- What a handler leaves, also when it throws. -/
def left : Except App App → App
  | .ok app => app
  | .error app => { app with threw := true }

/-- One event. -/
def packagerStep (engine : Engine) (app : App) (e : Event) : Option App :=
  some (left (handle engine app e))

end VideooServer.LivePackager

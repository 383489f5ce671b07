import Imbh.Lib.Runs
import Imbh.Lib.Text

/-!
# The refresh protocol of the explorer

A key press or a tick asks for a refresh, which sends a query unless one is in flight, and is made up for when
the answer lands. The cursors of the Logs pages are kept for a page move only.

* `refresh_protocol` — the results for runs.
-/

namespace Imbh.Tui.Refreshing

open Lib List Option Function

/-! ## The state of the explorer -/

/-- Source: `model.rs` `Screen` -/
inductive Screen
  | overview
  | metrics
  | traces
  | logs
  deriving DecidableEq

/-- Source: `model.rs` `Route` -/
inductive Route
  | overview
  | metrics
  | metricDetail
  | traces
  | traceDetail
  | spanDetail
  | logs
  | logDetail
  deriving DecidableEq

/-- Source: `model.rs` `Route::screen` -/
def Route.screen : Route → Screen
  | .overview => .overview
  | .metrics | .metricDetail => .metrics
  | .traces | .traceDetail | .spanDetail => .traces
  | .logs | .logDetail => .logs

/-- Source: `model.rs` `Route::list` -/
def Route.list : Screen → Route
  | .overview => .overview
  | .metrics => .metrics
  | .traces => .traces
  | .logs => .logs

/-- Source: `model.rs` `Route::is_detail` -/
def Route.isDetail : Route → Bool
  | .metricDetail | .logDetail | .traceDetail | .spanDetail => true
  | .overview | .metrics | .traces | .logs => false

/-- Source: `model.rs` `Mode` -/
inductive Mode
  | normal
  | menu
  | editing
  | timeRange
  | absoluteRange
  deriving DecidableEq

/-- Source: `model.rs` `AbsTarget` -/
inductive AbsTarget
  | query
  | attributes
  deriving DecidableEq

/-- Source: `model.rs` `Refresh` -/
inductive Refresh
  | interactive
  | background
  deriving DecidableEq

/-- Source: `model.rs` `LogCorrelation` -/
structure LogCorrelation where
  traceId : Text
  spanId : Option Text
  deriving DecidableEq

/-- A query that was sent, with what it was made from. Source: `tasks.rs` `request_refresh_as` -/
structure Request where
  generation : UInt64
  screen : Screen
  query : Text
  rangeIndex : ℕ
  absWindow : Option (ℤ × ℤ)
  after : Option ℕ
  correlation : Option LogCorrelation
  deriving DecidableEq

/-- A result on screen: the query it was computed for, none for a message, and the cursor of the next page.
Source: `model.rs` `Snapshot` -/
structure Snapshot where
  request : Option Request
  nextCursor : Option ℕ
  deriving DecidableEq

/-- A view in the history. Source: `model.rs` `NavEntry`; `committed` is not in the source -/
structure NavEntry where
  route : Route
  query : Screen → Text
  logCorrelation : Option LogCorrelation
  committed : Screen → Text

/-- Source: `app/mod.rs` `App`; `committed` is not in the source: the query text that each screen was last told to
run -/
structure App where
  route : Route
  query : Screen → Text
  committed : Screen → Text
  mode : Mode
  rangeIndex : ℕ
  rangeCursor : ℕ
  absWindow : Option (ℤ × ℤ)
  absTarget : AbsTarget
  autoRefresh : Bool
  loading : Bool
  inputLocked : Bool
  inputRefused : Bool
  pendingRefresh : Option Refresh
  generation : UInt64
  snapshot : Snapshot
  lastError : Option Text
  back : List NavEntry
  forward : List NavEntry
  logCursorStack : List ℕ
  logNextCursor : Option ℕ
  logPaging : Bool
  logCorrelation : Option LogCorrelation

namespace App

/-- Source: `app/mod.rs` `App::new` -/
def defaultQuery : Screen → Text
  | .overview | .metrics => []
  | .traces | .logs => "{}".toList

/-- Source: `app/mod.rs` `App::new` and `runtime.rs` `run_backend`, which takes the window of the options -/
def new (window : Option (ℤ × ℤ)) : App where
  route := .overview
  query := defaultQuery
  committed := defaultQuery
  mode := .normal
  rangeIndex := 1
  rangeCursor := 1
  absWindow := window
  absTarget := .query
  autoRefresh := false
  loading := false
  inputLocked := false
  inputRefused := false
  pendingRefresh := none
  generation := 0
  snapshot := ⟨none, none⟩
  lastError := none
  back := []
  forward := []
  logCursorStack := []
  logNextCursor := none
  logPaging := false
  logCorrelation := none

variable (app : App)

/-- Source: `app/mod.rs` `App::screen` -/
def screen : Screen := app.route.screen

/-- Source: `app/mod.rs` `App::active_query` -/
def activeQuery : Text := app.query app.screen

/-- Source: `app/nav.rs` `App::has_query` -/
def hasQuery : Bool := app.screen ≠ .overview && !app.route.isDetail

/-- Source: `app/catalog.rs` `App::on_catalog` -/
def onCatalog : Bool := app.screen = .metrics && (trim app.activeQuery).isEmpty

/-- The query text of the screen, which is then also the committed one. Source: `app/mod.rs`
`App::set_active_query` -/
def setActiveQuery (query : Text) : App :=
  { app with
    query := update app.query app.screen query
    committed := update app.committed app.screen query }

/-! ## Loading -/

/-- Source: `app/mod.rs` `App::begin_loading` -/
def beginLoading (origin : Refresh) : App :=
  { app with loading := true, inputLocked := origin = .interactive, inputRefused := false }

/-- Source: `app/mod.rs` `App::end_loading` -/
def endLoading : App := { app with loading := false, inputLocked := false, inputRefused := false }

/-- The query that is sent now. Source: `tasks.rs` `request_refresh_as` -/
def request : Request :=
  ⟨app.generation, app.screen, app.activeQuery, app.rangeIndex, app.absWindow, app.logCursorStack.getLast?,
    app.logCorrelation⟩

/-- The cursors are kept for a page move only. Source: `tasks.rs` `request_refresh_as` -/
def takePaging : App :=
  if app.logPaging then { app with logPaging := false }
  else { app with logCursorStack := [], logNextCursor := none }

/-- Source: `tasks.rs` `request_refresh_as`, while a query is in flight -/
def coalesce (origin : Refresh) : App :=
  { app with
    pendingRefresh := some (match app.pendingRefresh with
      | some .interactive => .interactive
      | _ => origin) }

/-- Source: `tasks.rs` `request_refresh_as`, while none is -/
def dispatch (origin : Refresh) : App :=
  let app := app.takePaging.beginLoading origin
  { app with generation := app.generation + 1 }

/-- Source: `tasks.rs` `request_refresh_as` -/
def requestRefreshAs (origin : Refresh) : App × Option Request :=
  if app.loading then (app.coalesce origin, none)
  else (app.dispatch origin, some (app.dispatch origin).request)

/-- Source: `app/mod.rs` `App::apply` -/
def apply (request : Request) (result : Except Text Snapshot) : App :=
  let app := app.endLoading
  if request.generation ≠ app.generation ∨ request.screen ≠ app.screen then app
  else
    match result with
    | .ok snapshot => { app with logNextCursor := snapshot.nextCursor, snapshot := snapshot, lastError := none }
    | .error error => { app with lastError := some error }

/-! ## History -/

/-- Source: `app/nav.rs` `App::capture_nav` -/
def captureNav : NavEntry := ⟨app.route, app.query, app.logCorrelation, app.committed⟩

/-- Source: `app/nav.rs` `App::push_entry`, `CAP` -/
def historyCap : ℕ := 64

/-- Source: `app/nav.rs` `App::push_history` -/
def pushHistory : App :=
  let back := app.back ++ [app.captureNav]
  { app with back := if historyCap < back.length then back.tail else back, forward := [] }

/-- Source: `app/nav.rs` `App::restore_nav` -/
def restoreNav (entry : NavEntry) : App :=
  { app with
    route := entry.route
    query := entry.query
    committed := entry.committed
    logCorrelation := entry.logCorrelation
    mode := .normal }

/-- Source: `app/nav.rs` `App::go_back` -/
def goBack : App × Bool :=
  match app.back.getLast? with
  | some entry => ({ app with back := app.back.dropLast, forward := app.forward ++ [app.captureNav] }.restoreNav entry,
      true)
  | none => (app, false)

/-- Source: `app/nav.rs` `App::go_forward` -/
def goForward : App × Bool :=
  match app.forward.getLast? with
  | some entry =>
      ({ app with forward := app.forward.dropLast, back := app.back ++ [app.captureNav] }.restoreNav entry, true)
  | none => (app, false)

/-- The view one step up, none for the catalog; whether the trace of a span is still there is `kept`.
Source: `app/nav.rs` `App::series_parent` -/
def seriesParent (kept : Bool) : Option (Option Route) :=
  match app.route with
  | .metricDetail => some (some .metrics)
  | .logDetail => some (some .logs)
  | .traceDetail => some (some .traces)
  | .spanDetail => some (some (if kept then .traceDetail else .traces))
  | .metrics => if app.onCatalog then none else some none
  | .overview | .traces | .logs => none

/-- Source: `app/nav.rs` `App::go_up` -/
def goUp (kept : Bool) : App × Bool :=
  match app.seriesParent kept with
  | none => (app, false)
  | some (some route) => ({ app.pushHistory with route := route, mode := .normal }, true)
  | some none => ({ app.pushHistory.setActiveQuery [] with mode := .normal }, true)

/-! ## Screens -/

/-- Source: `keys.rs` `switch_screen`, up to its refresh -/
def switchScreen (screen : Screen) : App :=
  { app with
    route := .list screen
    logCorrelation := if screen ≠ .logs then none else app.logCorrelation
    snapshot := ⟨none, none⟩ }

/-- Source: `keys.rs` `switch_screen_history`, up to its refresh -/
def switchScreenHistory (screen : Screen) : App :=
  (if app.screen ≠ screen then app.pushHistory else app).switchScreen screen

/-- Source: `app/views.rs` `App::logs_page_older` -/
def logsPageOlder : App × Bool :=
  if app.screen ≠ .logs ∨ app.route.isDetail = true then (app, false)
  else
    match app.logNextCursor with
    | none => (app, false)
    | some cursor => ({ app with logCursorStack := app.logCursorStack ++ [cursor], logPaging := true }, true)

/-- Source: `app/views.rs` `App::logs_page_newer` -/
def logsPageNewer : App × Bool :=
  if app.screen ≠ .logs ∨ app.route.isDetail = true then (app, false)
  else if app.logCursorStack = [] then (app, false)
  else ({ app with logCursorStack := app.logCursorStack.dropLast, logPaging := true }, true)

/-- The number of presets. Source: `model.rs` `TIME_RANGES` -/
def timeRanges : ℕ := 8

/-- Source: `keys.rs` `open_time_range` -/
def openTimeRange : App :=
  { app with
    rangeCursor := if app.absWindow.isSome then timeRanges else app.rangeIndex
    mode := .timeRange }

/-- Source: `app/window.rs` `App::open_abs_form` -/
def openAbsForm (target : AbsTarget) : App := { app with absTarget := target, mode := .absoluteRange }

end App

/-- What the two fields of the absolute form hold. -/
inductive Fields
  | empty
  | invalid
  | range (start stop : ℤ)

/-- Source: `app/window.rs` `App::commit_absolute` -/
def App.commitAbsolute (app : App) : Fields → App × Bool
  | .empty => if app.absTarget = .attributes then ({ app with mode := .normal }, true) else (app, false)
  | .invalid => (app, false)
  | .range start stop =>
      if start ≥ stop then (app, false)
      else
        match app.absTarget with
        | .query => ({ app with absWindow := some (start, stop), mode := .normal }, true)
        | .attributes => ({ app with mode := .normal }, true)

/-! ## Keys -/

/-- A key press, by what it does where it does something: the key's code with the focus, the rows and the clock
that it is read with. `other` are the keys that change nothing of the state. -/
inductive Press
  | text (text : Text)
  | escape
  | enter
  | moveRange (down : Bool)
  | commit (fields : Fields)
  | chooseScreen (screen : Screen)
  | chooseRange
  | openMenu
  | timeRange
  | attrRange
  | edit
  | switchTo (screen : Screen)
  | back
  | forward
  | up (kept : Bool)
  | openTrace
  | openLogs (correlation : LogCorrelation)
  | openLogDetail
  | openTraceDetail
  | openSpanDetail
  | openMetricDetail
  | visualize (query : Text)
  | window (window : Option (ℤ × ℤ))
  | older
  | newer
  | refresh
  | toggleAutoRefresh
  | other

namespace App

variable (app : App)

/-- The state before the refresh that the press asks for, and whether it asks for one.
Source: `keys.rs` `handle_key`, `Mode::Editing` -/
def pressEditing : Press → App × Bool
  | .text text => ({ app with query := update app.query app.screen text }, false)
  | .escape => ({ app with mode := .normal }, false)
  | .enter =>
      ({ app with
        mode := .normal
        committed := update app.committed app.screen app.activeQuery
        logCorrelation := if app.screen = .logs then none else app.logCorrelation }, true)
  | _ => (app, false)

/-- Source: `keys.rs` `handle_key`, `Mode::TimeRange` -/
def pressTimeRange : Press → App × Bool
  | .escape => ({ app with mode := .normal }, false)
  | .moveRange down =>
      ({ app with rangeCursor := if down then min (app.rangeCursor + 1) timeRanges else app.rangeCursor - 1 }, false)
  | .enter =>
      if app.rangeCursor = timeRanges then (app.openAbsForm .query, false)
      else
        ({ app with mode := .normal, rangeIndex := app.rangeCursor, absWindow := none },
          app.rangeCursor ≠ app.rangeIndex || app.absWindow.isSome)
  | _ => (app, false)

/-- Source: `keys.rs` `handle_key`, `Mode::AbsoluteRange` -/
def pressAbsoluteRange : Press → App × Bool
  | .escape => ({ app with mode := .normal }, false)
  | .commit fields => app.commitAbsolute fields
  | _ => (app, false)

/-- Source: `keys.rs` `handle_key`, `Mode::Menu` -/
def pressMenu : Press → App × Bool
  | .escape => ({ app with mode := .normal }, false)
  | .chooseScreen screen => ({ app with mode := .normal }.switchScreenHistory screen, true)
  | .chooseRange => (app.openTimeRange, false)
  | _ => (app, false)

/-- Source: `keys.rs` `handle_key`, `Mode::Normal`, and `handle_detail_key` -/
def pressNormal : Press → App × Bool
  | .openMenu => ({ app with mode := .menu }, false)
  | .timeRange => (app.openTimeRange, false)
  | .attrRange => (if app.screen = .overview then app.openAbsForm .attributes else app, false)
  | .edit => (if app.hasQuery then { app with mode := .editing } else app, false)
  | .switchTo screen => (app.switchScreenHistory screen, true)
  | .back => app.goBack
  | .forward => app.goForward
  | .up kept => app.goUp kept
  | .openTrace =>
      if app.route = .logDetail ∨ app.route = .metricDetail then (app.pushHistory.switchScreen .traces, true)
      else (app, false)
  | .openLogs correlation =>
      if app.screen = .traces then
        ({ app.pushHistory with logCorrelation := some correlation }.switchScreen .logs, true)
      else (app, false)
  | .openLogDetail => (if app.route = .logs then { app.pushHistory with route := .logDetail } else app, false)
  | .openTraceDetail => (if app.route = .traces then { app.pushHistory with route := .traceDetail } else app, false)
  | .openSpanDetail => (if app.route = .traceDetail then { app.pushHistory with route := .spanDetail } else app, false)
  | .openMetricDetail =>
      (if app.route = .metrics ∧ app.onCatalog = false then { app.pushHistory with route := .metricDetail } else app,
        false)
  | .visualize query => if app.onCatalog then (app.pushHistory.setActiveQuery query, true) else (app, false)
  | .window window => ({ app with absWindow := window }, true)
  | .older => app.logsPageOlder
  | .newer => app.logsPageNewer
  | .refresh => (app, true)
  | .toggleAutoRefresh => ({ app with autoRefresh := !app.autoRefresh }, false)
  | _ => (app, false)

/-- Source: `keys.rs` `handle_key` -/
def handleKey (press : Press) : App × Bool :=
  match app.mode with
  | .editing => app.pressEditing press
  | .timeRange => app.pressTimeRange press
  | .absoluteRange => app.pressAbsoluteRange press
  | .menu => app.pressMenu press
  | .normal => if app.inputLocked then ({ app with inputRefused := true }, false) else app.pressNormal press

end App

/-! ## The event loop -/

/-- The explorer and its queries. Each query in flight goes with whether a key press asked for it. `asked` is
whether one asked for the next, `requested` counts the refreshes and `served` those that a query was sent for,
`lastOk` is whether the last answer was a result, and `returned` has the cursors with the queries they answered. -/
structure Explorer where
  app : App
  inFlight : List (Request × Bool)
  asked : Bool
  requested : ℕ
  served : ℕ
  lastOk : Bool
  returned : List (ℕ × Request)

/-- What happens: a key press, the timer of the auto-refresh, the answer to a query with the cursor of its next
page, or the arrival of a waterfall that opens its trace, recorded in the history or not. -/
inductive Event
  | key (press : Press)
  | tick
  | complete (i : ℕ) (result : Except Text (Option ℕ))
  | traceOpened (record : Bool)

/-- Source: `tasks.rs` `request_refresh_as` -/
def Explorer.refresh (s : Explorer) (origin : Refresh) : Explorer :=
  match s.app.requestRefreshAs origin with
  | (app, none) => { s with app := app }
  | (app, some request) =>
      { s with
        app := app
        inFlight := s.inFlight ++ [(request, s.asked)]
        asked := false
        served := s.requested }

/-- The answer to a query. Off the Logs screen there is no next page. Source: `fetch.rs` `load_snapshot` -/
def answerOf (request : Request) (result : Except Text (Option ℕ)) : Except Text Snapshot :=
  result.map fun cursor => ⟨some request, if request.screen = .logs then cursor else none⟩

/-- The cursor that an answer returns. -/
def cursorOf (request : Request) : Except Text (Option ℕ) → List (ℕ × Request)
  | .ok (some cursor) => if request.screen = .logs then [(cursor, request)] else []
  | _ => []

/-- The state before the refresh that the event asks for, and the refresh.
Source: `runtime.rs` `run_backend`, the event loop -/
def Explorer.prepare (s : Explorer) : Event → Option (Explorer × Option Refresh)
  | .key press =>
      match s.app.handleKey press with
      | (app, true) => some ({ s with app := app, asked := true, requested := s.requested + 1 }, some .interactive)
      | (app, false) => some ({ s with app := app }, none)
  | .tick =>
      if s.app.autoRefresh = true ∧ s.app.mode = .normal then
        some ({ s with requested := s.requested + 1 }, some .background)
      else none
  | .complete i result =>
      match s.inFlight[i]? with
      | none => none
      | some (request, _) =>
          let app := s.app.apply request (answerOf request result)
          some ({ s with
            app := { app with pendingRefresh := none }
            inFlight := s.inFlight.eraseIdx i
            lastOk := result.isOk
            returned := s.returned ++ cursorOf request result }, app.pendingRefresh)
  | .traceOpened record =>
      if s.app.route = .traces then
        some ({ s with app := { (if record then s.app.pushHistory else s.app) with route := .traceDetail } }, none)
      else none

def Explorer.step (s : Explorer) (e : Event) : Option Explorer :=
  (s.prepare e).map fun r =>
    match r.2 with
    | none => r.1
    | some origin => r.1.refresh origin

/-- The explorer at its start, which asks for the first query. Source: `runtime.rs` `run_backend` -/
def Explorer.init (window : Option (ℤ × ℤ)) : Explorer :=
  (⟨.new window, [], true, 1, 0, false, []⟩ : Explorer).refresh .interactive

/-! ## Views -/

/-- What a query is for: the screen, the query text, the window and the correlation. -/
structure View where
  screen : Screen
  query : Text
  rangeIndex : ℕ
  absWindow : Option (ℤ × ℤ)
  correlation : Option LogCorrelation
  deriving DecidableEq

def Request.view (r : Request) : View := ⟨r.screen, r.query, r.rangeIndex, r.absWindow, r.correlation⟩

/-- The view of the user: the current screen with what was last committed. -/
def App.view (app : App) : View :=
  ⟨app.screen, app.committed app.screen, app.rangeIndex, app.absWindow, app.logCorrelation⟩

variable {app app' : App} {s s' : Explorer} {e : Event} {origin : Option Refresh}

/-! ## What a press does -/

/-- The fields of the protocol are the same. -/
structure Frame (app app' : App) : Prop where
  loading : app'.loading = app.loading
  inputLocked : app'.inputLocked = app.inputLocked
  pendingRefresh : app'.pendingRefresh = app.pendingRefresh
  generation : app'.generation = app.generation

/-- The cursors are the same. -/
structure SameCursors (app app' : App) : Prop where
  stack : app'.logCursorStack = app.logCursorStack
  next : app'.logNextCursor = app.logNextCursor
  paging : app'.logPaging = app.logPaging

/-- A move to another page, of the pages that there are. -/
structure Paged (app app' : App) : Prop where
  some : ¬(app.logCursorStack = [] ∧ app.logNextCursor = none)
  view : app'.view = app.view
  mode : app'.mode = app.mode
  paging : app'.logPaging = true
  next : app'.logNextCursor = app.logNextCursor
  stack : ∀ c ∈ app'.logCursorStack, c ∈ app.logCursorStack ∨ app.logNextCursor = Option.some c

/-- What a press does to the protocol: without a refresh the view and the snapshot stay, and the cursors change
for a page move only. -/
structure Pressed (app : App) (r : App × Bool) : Prop where
  frame : Frame app r.1
  quiet : r.2 = false → r.1.view = app.view ∧ r.1.snapshot = app.snapshot ∧ SameCursors app r.1
  asks : r.2 = true → SameCursors app r.1 ∨ app.mode = .normal ∧ Paged app r.1

theorem Pressed.quietly (h : Frame app app') (hcursors : SameCursors app app') (hview : app'.view = app.view)
    (hsnapshot : app'.snapshot = app.snapshot) : Pressed app (app', false) where
  frame := h
  quiet _ := ⟨hview, hsnapshot, hcursors⟩
  asks h := nomatch h

theorem Pressed.asking (h : Frame app app') (hcursors : SameCursors app app') : Pressed app (app', true) where
  frame := h
  quiet h := nomatch h
  asks _ := .inl hcursors

theorem Pressed.paging (h : Frame app app') (hmode : app.mode = .normal) (hpaged : Paged app app') :
    Pressed app (app', true) where
  frame := h
  quiet h := nomatch h
  asks _ := .inr ⟨hmode, hpaged⟩

theorem Pressed.nothing (app : App) : Pressed app (app, false) :=
  .quietly ⟨rfl, rfl, rfl, rfl⟩ ⟨rfl, rfl, rfl⟩ rfl rfl

theorem pressEditing_spec (app : App) (press : Press) : Pressed app (app.pressEditing press) := by
  unfold App.pressEditing
  split
  · exact .quietly ⟨rfl, rfl, rfl, rfl⟩ ⟨rfl, rfl, rfl⟩ rfl rfl
  · exact .quietly ⟨rfl, rfl, rfl, rfl⟩ ⟨rfl, rfl, rfl⟩ rfl rfl
  · exact .asking ⟨rfl, rfl, rfl, rfl⟩ ⟨rfl, rfl, rfl⟩
  · exact .nothing app

theorem pressTimeRange_spec (app : App) (press : Press) : Pressed app (app.pressTimeRange press) := by
  unfold App.pressTimeRange
  split
  · exact .quietly ⟨rfl, rfl, rfl, rfl⟩ ⟨rfl, rfl, rfl⟩ rfl rfl
  · exact .quietly ⟨rfl, rfl, rfl, rfl⟩ ⟨rfl, rfl, rfl⟩ rfl rfl
  · split
    · exact .quietly ⟨rfl, rfl, rfl, rfl⟩ ⟨rfl, rfl, rfl⟩ rfl rfl
    · rcases hchanged : (app.rangeCursor ≠ app.rangeIndex || app.absWindow.isSome : Bool) with _ | _
      · -- the preset in force, with no absolute window: nothing changes
        obtain ⟨hsame, hnone⟩ := Bool.or_eq_false_iff.mp hchanged
        have hindex : app.rangeCursor = app.rangeIndex := by simpa using hsame
        have hwindow : app.absWindow = none := not_isSome_iff_eq_none.mp (Bool.eq_false_iff.mp hnone)
        refine .quietly ⟨rfl, rfl, rfl, rfl⟩ ⟨rfl, rfl, rfl⟩ ?_ rfl
        show View.mk _ _ app.rangeCursor none _ = _
        rw [hindex, ← hwindow]
        rfl
      · exact .asking ⟨rfl, rfl, rfl, rfl⟩ ⟨rfl, rfl, rfl⟩
  · exact .nothing app

theorem commitAbsolute_spec (app : App) (fields : Fields) : Pressed app (app.commitAbsolute fields) := by
  unfold App.commitAbsolute
  split
  · split
    · exact .asking ⟨rfl, rfl, rfl, rfl⟩ ⟨rfl, rfl, rfl⟩
    · exact .nothing app
  · exact .nothing app
  · split
    · exact .nothing app
    · split
      · exact .asking ⟨rfl, rfl, rfl, rfl⟩ ⟨rfl, rfl, rfl⟩
      · exact .asking ⟨rfl, rfl, rfl, rfl⟩ ⟨rfl, rfl, rfl⟩

theorem pressAbsoluteRange_spec (app : App) (press : Press) : Pressed app (app.pressAbsoluteRange press) := by
  unfold App.pressAbsoluteRange
  split
  · exact .quietly ⟨rfl, rfl, rfl, rfl⟩ ⟨rfl, rfl, rfl⟩ rfl rfl
  · exact commitAbsolute_spec app _
  · exact .nothing app

theorem switchScreenHistory_frame (app : App) (screen : Screen) :
    Frame app (app.switchScreenHistory screen) ∧ SameCursors app (app.switchScreenHistory screen) := by
  unfold App.switchScreenHistory
  split
  · exact ⟨⟨rfl, rfl, rfl, rfl⟩, rfl, rfl, rfl⟩
  · exact ⟨⟨rfl, rfl, rfl, rfl⟩, rfl, rfl, rfl⟩

theorem pressMenu_spec (app : App) (press : Press) : Pressed app (app.pressMenu press) := by
  unfold App.pressMenu
  split
  · exact .quietly ⟨rfl, rfl, rfl, rfl⟩ ⟨rfl, rfl, rfl⟩ rfl rfl
  · obtain ⟨hframe, hcursors⟩ := switchScreenHistory_frame { app with mode := .normal } ‹Screen›
    exact .asking ⟨hframe.1, hframe.2, hframe.3, hframe.4⟩ ⟨hcursors.1, hcursors.2, hcursors.3⟩
  · exact .quietly ⟨rfl, rfl, rfl, rfl⟩ ⟨rfl, rfl, rfl⟩ rfl rfl
  · exact .nothing app

theorem goBack_spec (app : App) : Pressed app app.goBack := by
  unfold App.goBack
  split
  · exact .asking ⟨rfl, rfl, rfl, rfl⟩ ⟨rfl, rfl, rfl⟩
  · exact .nothing app

theorem goForward_spec (app : App) : Pressed app app.goForward := by
  unfold App.goForward
  split
  · exact .asking ⟨rfl, rfl, rfl, rfl⟩ ⟨rfl, rfl, rfl⟩
  · exact .nothing app

theorem goUp_spec (app : App) (kept : Bool) : Pressed app (app.goUp kept) := by
  unfold App.goUp
  split
  · exact .nothing app
  · exact .asking ⟨rfl, rfl, rfl, rfl⟩ ⟨rfl, rfl, rfl⟩
  · exact .asking ⟨rfl, rfl, rfl, rfl⟩ ⟨rfl, rfl, rfl⟩

theorem logsPageOlder_spec (hmode : app.mode = .normal) : Pressed app app.logsPageOlder := by
  unfold App.logsPageOlder
  split
  · exact .nothing app
  · rcases hnext : app.logNextCursor with _ | cursor
    · exact .nothing app
    · refine .paging ⟨rfl, rfl, rfl, rfl⟩ hmode ?_
      refine ⟨fun hnone => (nomatch hnext.symm.trans hnone.2), rfl, rfl, rfl, hnext.symm, fun c hc => ?_⟩
      rcases mem_append.mp hc with hc | hc
      · exact .inl hc
      · exact .inr (hnext.trans (congrArg some (mem_singleton.mp hc).symm))

theorem logsPageNewer_spec (hmode : app.mode = .normal) : Pressed app app.logsPageNewer := by
  unfold App.logsPageNewer
  split
  · exact .nothing app
  · split
    · exact .nothing app
    · rename_i hstack
      refine .paging ⟨rfl, rfl, rfl, rfl⟩ hmode ?_
      exact ⟨fun hnone => hstack hnone.1, rfl, rfl, rfl, rfl, fun c hc => .inl (dropLast_subset _ hc)⟩

/-- A detail of a list stays on its screen. -/
theorem open_spec {route : Route} (h : route.screen = app.screen) :
    Pressed app ({ app.pushHistory with route := route }, false) := by
  refine .quietly ⟨rfl, rfl, rfl, rfl⟩ ⟨rfl, rfl, rfl⟩ ?_ rfl
  show View.mk route.screen (app.committed route.screen) _ _ _ = _
  rw [h]
  rfl

theorem pressNormal_spec (hmode : app.mode = .normal) (press : Press) : Pressed app (app.pressNormal press) := by
  unfold App.pressNormal
  split
  · exact .quietly ⟨rfl, rfl, rfl, rfl⟩ ⟨rfl, rfl, rfl⟩ rfl rfl
  · exact .quietly ⟨rfl, rfl, rfl, rfl⟩ ⟨rfl, rfl, rfl⟩ rfl rfl
  · split
    · exact .quietly ⟨rfl, rfl, rfl, rfl⟩ ⟨rfl, rfl, rfl⟩ rfl rfl
    · exact .nothing app
  · split
    · exact .quietly ⟨rfl, rfl, rfl, rfl⟩ ⟨rfl, rfl, rfl⟩ rfl rfl
    · exact .nothing app
  · exact .asking (switchScreenHistory_frame app _).1 (switchScreenHistory_frame app _).2
  · exact goBack_spec app
  · exact goForward_spec app
  · exact goUp_spec app _
  · split
    · exact .asking ⟨rfl, rfl, rfl, rfl⟩ ⟨rfl, rfl, rfl⟩
    · exact .nothing app
  · split
    · exact .asking ⟨rfl, rfl, rfl, rfl⟩ ⟨rfl, rfl, rfl⟩
    · exact .nothing app
  · split
    · rename_i hroute
      exact open_spec (congrArg Route.screen hroute).symm
    · exact .nothing app
  · split
    · rename_i hroute
      exact open_spec (congrArg Route.screen hroute).symm
    · exact .nothing app
  · split
    · rename_i hroute
      exact open_spec (congrArg Route.screen hroute).symm
    · exact .nothing app
  · split
    · rename_i hroute
      exact open_spec (congrArg Route.screen hroute.1).symm
    · exact .nothing app
  · split
    · exact .asking ⟨rfl, rfl, rfl, rfl⟩ ⟨rfl, rfl, rfl⟩
    · exact .nothing app
  · exact .asking ⟨rfl, rfl, rfl, rfl⟩ ⟨rfl, rfl, rfl⟩
  · exact logsPageOlder_spec hmode
  · exact logsPageNewer_spec hmode
  · exact .asking ⟨rfl, rfl, rfl, rfl⟩ ⟨rfl, rfl, rfl⟩
  · exact .quietly ⟨rfl, rfl, rfl, rfl⟩ ⟨rfl, rfl, rfl⟩ rfl rfl
  · exact .nothing app

/-- While the keyboard is locked, a key of the normal mode does nothing. -/
theorem handleKey_locked (hmode : app.mode = .normal) (hlocked : app.inputLocked = true) (press : Press) :
    app.handleKey press = ({ app with inputRefused := true }, false) := by
  unfold App.handleKey
  rw [hmode]
  exact if_pos hlocked

theorem handleKey_spec (app : App) (press : Press) : Pressed app (app.handleKey press) := by
  rcases hmode : app.mode with _ | _ | _ | _ | _
  · by_cases hlocked : app.inputLocked = true
    · rw [handleKey_locked hmode hlocked]
      exact .quietly ⟨rfl, rfl, rfl, rfl⟩ ⟨rfl, rfl, rfl⟩ rfl rfl
    · unfold App.handleKey
      rw [hmode]
      dsimp only
      rw [if_neg hlocked]
      exact pressNormal_spec hmode press
  · unfold App.handleKey
    rw [hmode]
    exact pressMenu_spec app press
  · unfold App.handleKey
    rw [hmode]
    exact pressEditing_spec app press
  · unfold App.handleKey
    rw [hmode]
    exact pressTimeRange_spec app press
  · unfold App.handleKey
    rw [hmode]
    exact pressAbsoluteRange_spec app press

/-! ## Sending a query -/

/-- What sending a query changes: the cursors stay for a page move only. -/
theorem dispatch_spec (app : App) (origin : Refresh) :
    (app.dispatch origin).loading = true ∧ (app.dispatch origin).inputLocked = decide (origin = .interactive) ∧
      (app.dispatch origin).pendingRefresh = app.pendingRefresh ∧ (app.dispatch origin).logPaging = false ∧
      (app.dispatch origin).mode = app.mode ∧ (app.dispatch origin).view = app.view ∧
      (app.dispatch origin).activeQuery = app.activeQuery ∧
      (app.logPaging = true ∧ (app.dispatch origin).logCursorStack = app.logCursorStack ∧
          (app.dispatch origin).logNextCursor = app.logNextCursor ∨
        (app.dispatch origin).logCursorStack = [] ∧ (app.dispatch origin).logNextCursor = none) := by
  unfold App.dispatch App.takePaging
  split
  · rename_i hpaging
    exact ⟨rfl, rfl, rfl, rfl, rfl, rfl, rfl, .inl ⟨hpaging, rfl, rfl⟩⟩
  · rename_i hpaging
    exact ⟨rfl, rfl, rfl, Bool.eq_false_iff.mpr hpaging, rfl, rfl, rfl, .inr ⟨rfl, rfl⟩⟩

theorem refresh_idle (h : s.app.loading = false) (origin : Refresh) :
    s.refresh origin = { s with
      app := s.app.dispatch origin
      inFlight := s.inFlight ++ [((s.app.dispatch origin).request, s.asked)]
      asked := false
      served := s.requested } := by
  unfold Explorer.refresh App.requestRefreshAs
  rw [h]
  rfl

theorem refresh_busy (h : s.app.loading = true) (origin : Refresh) :
    s.refresh origin = { s with app := s.app.coalesce origin } := by
  unfold Explorer.refresh App.requestRefreshAs
  rw [h]
  rfl

/-- What an answer changes. -/
theorem apply_spec (app : App) (request : Request) (result : Except Text Snapshot) :
    (app.apply request result).loading = false ∧ (app.apply request result).inputLocked = false ∧
      (app.apply request result).pendingRefresh = app.pendingRefresh ∧
      (app.apply request result).logPaging = app.logPaging ∧ (app.apply request result).view = app.view ∧
      (app.apply request result).logCursorStack = app.logCursorStack ∧
      (request.generation = app.generation → request.screen = app.screen → ∀ snapshot, result = .ok snapshot →
        (app.apply request result).snapshot = snapshot ∧
          (app.apply request result).logNextCursor = snapshot.nextCursor) ∧
      ((∀ snapshot, result ≠ .ok snapshot) → (app.apply request result).logNextCursor = app.logNextCursor) := by
  unfold App.apply
  dsimp only
  split
  · rename_i hstale
    refine ⟨rfl, rfl, rfl, rfl, rfl, rfl, fun hgeneration hscreen => ?_, fun _ => rfl⟩
    rcases hstale with hstale | hstale
    · exact absurd hgeneration hstale
    · exact absurd hscreen hstale
  · rcases result with error | snapshot
    · exact ⟨rfl, rfl, rfl, rfl, rfl, rfl, fun _ _ snapshot h => (nomatch h), fun _ => rfl⟩
    · refine ⟨rfl, rfl, rfl, rfl, rfl, rfl, fun _ _ taken h => ?_, fun h => absurd rfl (h snapshot)⟩
      cases h
      exact ⟨rfl, rfl⟩

/-! ## Every run -/

/-- What holds in every state: while nothing loads, nothing is in flight, waits or is unserved; else one query is in
flight, the lock is for a press, and pages can be moved to only with the keyboard locked. -/
structure Explorer.Sound (s : Explorer) : Prop where
  paging : s.app.logPaging = false
  idle : s.app.loading = false → s.inFlight = [] ∧ s.app.pendingRefresh = none ∧ s.app.inputLocked = false ∧
    s.served = s.requested
  busy : s.app.loading = true → ∃ f, s.inFlight = [f] ∧ f.1.generation = s.app.generation ∧
    (s.app.inputLocked = true → f.2 = true) ∧ (s.app.pendingRefresh = none → s.served = s.requested)
  cursors : s.app.loading = true → s.app.logCursorStack = [] ∧ s.app.logNextCursor = none ∨
    s.app.inputLocked = true ∧ s.app.mode = .normal
  asked : s.app.pendingRefresh = some .interactive → s.asked = true

/-- What holds of a state before the refresh that it asks for. -/
structure Explorer.Ready (s : Explorer) (origin : Refresh) : Prop where
  asked : origin = .interactive ∨ s.app.pendingRefresh = some .interactive → s.asked = true
  idle : s.app.loading = false → s.inFlight = [] ∧ s.app.pendingRefresh = none ∧
    (s.app.logPaging = true → origin = .interactive ∧ s.app.mode = .normal)
  busy : s.app.loading = true → s.app.logPaging = false ∧ ∃ f, s.inFlight = [f] ∧
    f.1.generation = s.app.generation ∧ (s.app.inputLocked = true → f.2 = true)
  cursors : s.app.loading = true → s.app.logCursorStack = [] ∧ s.app.logNextCursor = none ∨
    s.app.inputLocked = true ∧ s.app.mode = .normal

theorem Explorer.Ready.sound {origin : Refresh} (h : s.Ready origin) : (s.refresh origin).Sound := by
  rcases hloading : s.app.loading with _ | _
  · obtain ⟨hnone, hpending, hpaging⟩ := h.idle hloading
    obtain ⟨hload, hlocked, hwaits, hoff, hmode, -, -, hcursors⟩ := dispatch_spec s.app origin
    rw [refresh_idle hloading]
    constructor
    · exact hoff
    · intro hidle
      exact nomatch hload.symm.trans hidle
    · intro _
      refine ⟨_, by rw [hnone]; rfl, rfl, fun hlock => ?_, fun _ => rfl⟩
      exact h.asked (.inl (of_decide_eq_true (hlocked.symm.trans hlock)))
    · intro _
      rcases hcursors with ⟨hpage, -⟩ | hempty
      · obtain ⟨hinteractive, hnormal⟩ := hpaging hpage
        exact .inr ⟨hlocked.trans (decide_eq_true hinteractive), hmode.trans hnormal⟩
      · exact .inl hempty
    · intro hsome
      exact nomatch (hwaits.trans hpending).symm.trans hsome
  · obtain ⟨hoff, f, hf, hgeneration, hlock⟩ := h.busy hloading
    rw [refresh_busy hloading]
    constructor
    · exact hoff
    · intro hidle
      exact nomatch hloading.symm.trans hidle
    · intro _
      exact ⟨f, hf, hgeneration, hlock, fun hnone => nomatch hnone⟩
    · exact h.cursors
    · intro hsome
      refine h.asked ?_
      have hwaits : some (match s.app.pendingRefresh with | some .interactive => .interactive | _ => origin) =
        some Refresh.interactive := hsome
      split at hwaits
      · rename_i hpending
        exact .inr hpending
      · exact .inl (some.inj hwaits)

/-- A press that asks for a refresh was not refused, so while a query is in flight there are no pages to move to. -/
theorem Explorer.Sound.live (h : s.Sound) {press : Press} (hrefresh : (s.app.handleKey press).2 = true)
    (hbusy : s.app.loading = true) :
    (s.app.handleKey press).1.logCursorStack = [] ∧ (s.app.handleKey press).1.logNextCursor = none ∧
      (s.app.handleKey press).1.logPaging = s.app.logPaging := by
  rcases h.cursors hbusy with ⟨hstack, hnext⟩ | ⟨hlock, hmode⟩
  · rcases (handleKey_spec s.app press).asks hrefresh with hsame | ⟨-, hpaged⟩
    · exact ⟨hsame.stack.trans hstack, hsame.next.trans hnext, hsame.paging⟩
    · exact absurd ⟨hstack, hnext⟩ hpaged.some
  · rw [handleKey_locked hmode hlock] at hrefresh
    exact nomatch hrefresh

/-- A press of a state that is sound. -/
theorem Explorer.Sound.press (h : s.Sound) (press : Press) :
    ((s.app.handleKey press).2 = false → ({ s with app := (s.app.handleKey press).1 } : Explorer).Sound) ∧
      ((s.app.handleKey press).2 = true → ({ s with
        app := (s.app.handleKey press).1, asked := true, requested := s.requested + 1 } : Explorer).Ready
        .interactive) := by
  obtain ⟨⟨hloading, hlocked, hpending, hgeneration⟩, hquiet, hasks⟩ := handleKey_spec s.app press
  constructor
  · intro hnone
    obtain ⟨-, -, hstack, hnext, hpaging⟩ := hquiet hnone
    constructor
    · exact hpaging.trans h.paging
    · intro hidle
      obtain ⟨hflight, hwaits, hlock, hserved⟩ := h.idle (hloading.symm.trans hidle)
      exact ⟨hflight, hpending.trans hwaits, hlocked.trans hlock, hserved⟩
    · intro hbusy
      obtain ⟨f, hf, hgen, hlock, hserved⟩ := h.busy (hloading.symm.trans hbusy)
      exact ⟨f, hf, hgen.trans hgeneration.symm, fun hl => hlock (hlocked.symm.trans hl),
        fun hp => hserved (hpending.symm.trans hp)⟩
    · intro hbusy
      rcases h.cursors (hloading.symm.trans hbusy) with ⟨hempty, hnone⟩ | ⟨hlock, hmode⟩
      · exact .inl ⟨hstack.trans hempty, hnext.trans hnone⟩
      · refine .inr ⟨hlocked.trans hlock, ?_⟩
        rw [handleKey_locked hmode hlock]
        exact hmode
    · intro hsome
      exact h.asked (hpending.symm.trans hsome)
  · intro hrefresh
    constructor
    · exact fun _ => rfl
    · intro hidle
      obtain ⟨hflight, hwaits, -, -⟩ := h.idle (hloading.symm.trans hidle)
      refine ⟨hflight, hpending.trans hwaits, fun hpaging => ⟨rfl, ?_⟩⟩
      rcases hasks hrefresh with hsame | ⟨hmode, hpaged⟩
      · exact nomatch (hsame.paging.trans h.paging).symm.trans hpaging
      · exact hpaged.mode.trans hmode
    · intro hbusy
      have hbefore := hloading.symm.trans hbusy
      obtain ⟨f, hf, hgen, hlock, -⟩ := h.busy hbefore
      exact ⟨(h.live hrefresh hbefore).2.2.trans h.paging, f, hf, hgen.trans hgeneration.symm,
        fun hl => hlock (hlocked.symm.trans hl)⟩
    · intro hbusy
      obtain ⟨hstack, hnext, -⟩ := h.live hrefresh (hloading.symm.trans hbusy)
      exact .inl ⟨hstack, hnext⟩

/-- The state after an answer, before the refresh that waited for it. -/
def Explorer.answered (s : Explorer) (i : ℕ) (request : Request) (result : Except Text (Option ℕ)) : Explorer :=
  { s with
    app := { s.app.apply request (answerOf request result) with pendingRefresh := none }
    inFlight := s.inFlight.eraseIdx i
    lastOk := result.isOk
    returned := s.returned ++ cursorOf request result }

/-- What an event does before the refresh that it asks for. -/
theorem prepare_cases (h : s.prepare e = some (s', origin)) :
    (∃ press, e = .key press ∧
      ((s.app.handleKey press).2 = true ∧ origin = some .interactive ∧
          s' = { s with app := (s.app.handleKey press).1, asked := true, requested := s.requested + 1 } ∨
        (s.app.handleKey press).2 = false ∧ origin = none ∧ s' = { s with app := (s.app.handleKey press).1 })) ∨
    (e = .tick ∧ origin = some .background ∧ s' = { s with requested := s.requested + 1 }) ∨
    (∃ i result f, e = .complete i result ∧ s.inFlight[i]? = some f ∧ origin = s.app.pendingRefresh ∧
      s' = s.answered i f.1 result) ∨
    (∃ record : Bool, e = .traceOpened record ∧ s.app.route = .traces ∧ origin = none ∧
      s' = { s with app := { (if record then s.app.pushHistory else s.app) with route := .traceDetail } }) := by
  match e with
  | .key press =>
    refine .inl ⟨press, rfl, ?_⟩
    rcases hkey : s.app.handleKey press with ⟨app, _ | _⟩
    · simp only [Explorer.prepare, hkey, some.injEq, Prod.mk.injEq] at h
      exact .inr ⟨rfl, h.2.symm, h.1.symm⟩
    · simp only [Explorer.prepare, hkey, some.injEq, Prod.mk.injEq] at h
      exact .inl ⟨rfl, h.2.symm, h.1.symm⟩
  | .tick =>
    refine .inr (.inl ⟨rfl, ?_⟩)
    simp only [Explorer.prepare] at h
    split at h
    · rw [some.injEq, Prod.mk.injEq] at h
      exact ⟨h.2.symm, h.1.symm⟩
    · exact nomatch h
  | .complete i result =>
    refine .inr (.inr (.inl ⟨i, result, ?_⟩))
    rcases hf : s.inFlight[i]? with _ | ⟨request, asked⟩
    · simp only [Explorer.prepare, hf, reduceCtorEq] at h
    · simp only [Explorer.prepare, hf, some.injEq, Prod.mk.injEq] at h
      refine ⟨(request, asked), rfl, rfl, h.2.symm.trans ?_, h.1.symm⟩
      exact (apply_spec s.app request (answerOf request result)).2.2.1
  | .traceOpened record =>
    refine .inr (.inr (.inr ⟨record, rfl, ?_⟩))
    simp only [Explorer.prepare] at h
    split at h
    · rename_i hroute
      rw [some.injEq, Prod.mk.injEq] at h
      exact ⟨hroute, h.2.symm, h.1.symm⟩
    · exact nomatch h

/-- The query of an answer is the one in flight. -/
theorem Explorer.Sound.answer (h : s.Sound) {i : ℕ} {f : Request × Bool} (hf : s.inFlight[i]? = some f) :
    s.app.loading = true ∧ s.inFlight = [f] ∧ s.inFlight.eraseIdx i = [] ∧ f.1.generation = s.app.generation ∧
      (s.app.pendingRefresh = none → s.served = s.requested) := by
  have hmem := List.mem_of_getElem? hf
  rcases hloading : s.app.loading with _ | _
  · rw [(h.idle hloading).1] at hmem
    exact absurd hmem List.not_mem_nil
  · obtain ⟨g, hg, hgen, -, hserved⟩ := h.busy hloading
    rw [hg, List.mem_singleton] at hmem
    subst hmem
    rw [hg] at hf
    have hi : i < 1 := (List.getElem?_eq_some_iff.mp hf).1
    obtain rfl : i = 0 := by omega
    exact ⟨rfl, hg, by rw [hg]; rfl, hgen, hserved⟩

/-- A state that is sound is ready for the refresh that an event asks for, and sound when it asks for none. -/
theorem Explorer.Sound.prepare (h : s.Sound) (hprepare : s.prepare e = some (s', origin)) :
    (origin = none → s'.Sound) ∧ ∀ o, origin = some o → s'.Ready o := by
  rcases prepare_cases hprepare with ⟨press, -, ⟨hrefresh, rfl, rfl⟩ | ⟨hquiet, rfl, rfl⟩⟩ | ⟨-, rfl, rfl⟩ |
    ⟨i, result, f, -, hf, rfl, rfl⟩ | ⟨record, -, hroute, rfl, rfl⟩
  · refine ⟨fun h => (nomatch h), fun o ho => ?_⟩
    cases ho
    exact (h.press press).2 hrefresh
  · exact ⟨fun _ => (h.press press).1 hquiet, fun o ho => nomatch ho⟩
  · refine ⟨fun h => (nomatch h), fun o ho => ?_⟩
    cases ho
    constructor
    · rintro (hsome | hsome)
      · exact nomatch hsome
      · exact h.asked hsome
    · intro hidle
      obtain ⟨hflight, hwaits, -, -⟩ := h.idle hidle
      exact ⟨hflight, hwaits, fun hpaging => nomatch h.paging.symm.trans hpaging⟩
    · intro hbusy
      obtain ⟨f, hf, hgen, hlock, -⟩ := h.busy hbusy
      exact ⟨h.paging, f, hf, hgen, hlock⟩
    · exact h.cursors
  · obtain ⟨hbusy, -, hflight, -, hserved⟩ := h.answer hf
    obtain ⟨hload, hlock, -, hpaging, -, -, -, -⟩ := apply_spec s.app f.1 (answerOf f.1 result)
    constructor
    · intro hnone
      constructor
      · exact hpaging.trans h.paging
      · exact fun _ => ⟨hflight, rfl, hlock, hserved hnone⟩
      · exact fun hload' => nomatch hload.symm.trans hload'
      · exact fun hload' => nomatch hload.symm.trans hload'
      · exact fun hsome => nomatch hsome
    · intro o ho
      constructor
      · rintro (rfl | hsome)
        · exact h.asked ho
        · exact nomatch hsome
      · exact fun _ => ⟨hflight, rfl, fun hpage => nomatch (hpaging.trans h.paging).symm.trans hpage⟩
      · exact fun hload' => nomatch hload.symm.trans hload'
      · exact fun hload' => nomatch hload.symm.trans hload'
  · refine ⟨fun _ => ?_, fun o ho => nomatch ho⟩
    split
    · exact ⟨h.paging, h.idle, h.busy, h.cursors, h.asked⟩
    · exact ⟨h.paging, h.idle, h.busy, h.cursors, h.asked⟩

theorem step_eq_some : s.step e = some s' ↔ ∃ m origin, s.prepare e = some (m, origin) ∧
    (origin = none ∧ s' = m ∨ ∃ o, origin = some o ∧ s' = m.refresh o) := by
  unfold Explorer.step
  rw [map_eq_some_iff]
  constructor
  · rintro ⟨⟨m, origin⟩, hm, rfl⟩
    refine ⟨m, origin, hm, ?_⟩
    rcases origin with _ | o
    · exact .inl ⟨rfl, rfl⟩
    · exact .inr ⟨o, rfl, rfl⟩
  · rintro ⟨m, origin, hm, ⟨rfl, rfl⟩ | ⟨o, rfl, rfl⟩⟩
    · exact ⟨_, hm, rfl⟩
    · exact ⟨_, hm, rfl⟩

theorem Explorer.Sound.step (h : s.Sound) (hstep : s.step e = some s') : s'.Sound := by
  obtain ⟨m, origin, hm, ⟨hnone, rfl⟩ | ⟨o, ho, rfl⟩⟩ := step_eq_some.mp hstep
  · exact (h.prepare hm).1 hnone
  · exact ((h.prepare hm).2 o ho).sound

theorem init_ready (window : Option (ℤ × ℤ)) :
    (⟨.new window, [], true, 1, 0, false, []⟩ : Explorer).Ready .interactive where
  asked _ := rfl
  idle _ := ⟨rfl, rfl, fun h => nomatch h⟩
  busy h := nomatch h
  cursors h := nomatch h

theorem Explorer.Sound.init (window : Option (ℤ × ℤ)) : (Explorer.init window).Sound := (init_ready window).sound

/-! ## Runs of committed queries -/

/-- The cursor was returned by a result for the view. -/
def Explorer.Returned (s : Explorer) (view : View) (cursor : ℕ) : Prop :=
  ∃ request, (cursor, request) ∈ s.returned ∧ request.view = view

/-- When the event sends a query, the query box of the screen holds what was committed. -/
def Committed (s : Explorer) (e : Event) : Prop :=
  ∀ m origin, s.prepare e = some (m, some origin) → m.app.loading = false →
    m.app.activeQuery = m.app.committed m.app.screen

/-- What holds while queries are sent for committed query texts: the result on screen and the query in flight are
for the view of the user, unless a refresh waits, and the cursors were returned for the view that they are used
for. -/
structure Explorer.Current (s : Explorer) : Prop where
  shown : s.app.loading = false → s.lastOk = true → ∃ request, s.app.snapshot.request = some request ∧
    request.view = s.app.view
  sent : s.app.loading = true → s.app.pendingRefresh = none → ∀ f ∈ s.inFlight, f.1.view = s.app.view
  cursors : ∀ c, c ∈ s.app.logCursorStack ∨ s.app.logNextCursor = some c → s.Returned s.app.view c
  pages : ∀ f ∈ s.inFlight, ∀ c, f.1.after = some c → s.Returned f.1.view c

/-- A query that is sent for a committed query text. -/
theorem Explorer.Current.dispatch (hidle : s.app.loading = false) (hflight : s.inFlight = [])
    (hbox : s.app.activeQuery = s.app.committed s.app.screen)
    (hcursors : s.app.logPaging = true →
      ∀ c, c ∈ s.app.logCursorStack ∨ s.app.logNextCursor = some c → s.Returned s.app.view c) (origin : Refresh) :
    (s.refresh origin).Current := by
  obtain ⟨hload, -, -, -, -, hview, hactive, hkept⟩ := dispatch_spec s.app origin
  have hrequest : (s.app.dispatch origin).request.view = s.app.view := by
    refine Eq.trans ?_ hview
    show View.mk _ (s.app.dispatch origin).activeQuery _ _ _ =
      View.mk _ ((s.app.dispatch origin).committed (s.app.dispatch origin).screen) _ _ _
    rw [hactive, hbox]
    exact congrArg (fun v : View => View.mk _ v.query _ _ _) hview.symm
  have hafter (c : ℕ) (hc : c ∈ (s.app.dispatch origin).logCursorStack ∨
      (s.app.dispatch origin).logNextCursor = some c) : s.Returned s.app.view c := by
    rcases hkept with ⟨hpaging, hstack, hnext⟩ | ⟨hstack, hnext⟩
    · rw [hstack, hnext] at hc
      exact hcursors hpaging c hc
    · rw [hstack, hnext] at hc
      rcases hc with hc | hc
      · exact absurd hc not_mem_nil
      · exact nomatch hc
  rw [refresh_idle hidle, hflight]
  constructor
  · exact fun hload' => nomatch hload.symm.trans hload'
  · intro _ _ f hf
    obtain rfl := mem_singleton.mp hf
    exact hrequest.trans hview.symm
  · intro c hc
    show ∃ request : Request, _ ∧ request.view = (s.app.dispatch origin).view
    rw [hview]
    exact hafter c hc
  · intro f hf c hc
    obtain rfl := mem_singleton.mp hf
    show ∃ request : Request, _ ∧ request.view = (s.app.dispatch origin).request.view
    rw [hrequest]
    exact hafter c (.inl (mem_of_getLast? hc))

/-- A refresh that waits. -/
theorem Explorer.Current.wait (hbusy : s.app.loading = true)
    (hcursors : ∀ c, c ∈ s.app.logCursorStack ∨ s.app.logNextCursor = some c → s.Returned s.app.view c)
    (hpages : ∀ f ∈ s.inFlight, ∀ c, f.1.after = some c → s.Returned f.1.view c) (origin : Refresh) :
    (s.refresh origin).Current := by
  rw [refresh_busy hbusy]
  exact ⟨fun h => (nomatch hbusy.symm.trans h), fun _ hnone => (nomatch hnone), hcursors, hpages⟩

/-- The answer to the query of the view, which is shown. -/
theorem Explorer.Current.answered (h : s.Current) (hsound : s.Sound) {i : ℕ} {f : Request × Bool}
    (hf : s.inFlight[i]? = some f) (hnone : s.app.pendingRefresh = none) (result : Except Text (Option ℕ)) :
    (s.answered i f.1 result).Current := by
  obtain ⟨hbusy, -, hflight, hgen, -⟩ := hsound.answer hf
  have hview := h.sent hbusy hnone f (mem_of_getElem? hf)
  obtain ⟨hload, -, -, -, hsame, hstack, haccepted, hfailed⟩ := apply_spec s.app f.1 (answerOf f.1 result)
  have hscreen : f.1.screen = s.app.screen := congrArg View.screen hview
  have hold {c : ℕ} (hc : s.Returned s.app.view c) : (s.answered i f.1 result).Returned s.app.view c := by
    obtain ⟨request, hmem, heq⟩ := hc
    exact ⟨request, mem_append_left _ hmem, heq⟩
  constructor
  · intro _ hok
    rcases result with error | cursor
    · exact nomatch hok
    · obtain ⟨hsnapshot, -⟩ := haccepted hgen hscreen _ rfl
      exact ⟨f.1, congrArg Snapshot.request hsnapshot, hview.trans hsame.symm⟩
  · exact fun hload' => nomatch hload.symm.trans hload'
  · intro c hc
    show (s.answered i f.1 result).Returned (s.app.apply f.1 (answerOf f.1 result)).view c
    rw [hsame]
    rcases hc with hc | hc
    · exact hold (h.cursors c (.inl (hstack ▸ hc)))
    · rcases result with error | cursor
      · exact hold (h.cursors c (.inr ((hfailed fun _ hok => nomatch hok).symm.trans hc)))
      · have hcursor : (if f.1.screen = .logs then cursor else none) = some c :=
          (haccepted hgen hscreen _ rfl).2.symm.trans hc
        split at hcursor
        · rename_i hlogs
          refine ⟨f.1, mem_append_right _ ?_, hview⟩
          rw [hcursor, cursorOf, if_pos hlogs]
          exact mem_singleton_self _
        · exact nomatch hcursor
  · intro g hg
    rw [show (s.answered i f.1 result).inFlight = [] from hflight] at hg
    exact absurd hg not_mem_nil

/-- The view, the snapshot and the cursors stay. -/
theorem Explorer.Current.still (h : s.Current) (hframe : Frame s.app app') (hcursors : SameCursors s.app app')
    (hview : app'.view = s.app.view) (hsnapshot : app'.snapshot = s.app.snapshot) :
    ({ s with app := app' } : Explorer).Current := by
  constructor
  · intro hidle hok
    obtain ⟨request, hrequest, heq⟩ := h.shown (hframe.loading.symm.trans hidle) hok
    exact ⟨request, (congrArg Snapshot.request hsnapshot).trans hrequest, heq.trans hview.symm⟩
  · intro hbusy hwaits f hf
    have hsent := h.sent (hframe.loading.symm.trans hbusy) (hframe.pendingRefresh.symm.trans hwaits) f hf
    exact hsent.trans hview.symm
  · intro c hc
    obtain ⟨request, hmem, heq⟩ := h.cursors c (hc.imp (fun hc => hcursors.stack ▸ hc) hcursors.next.symm.trans)
    exact ⟨request, hmem, heq.trans hview.symm⟩
  · exact h.pages

/-- A press keeps what holds, and so does the refresh that it asks for. -/
theorem Explorer.Current.press (h : s.Current) (hsound : s.Sound) (press : Press) :
    ((s.app.handleKey press).2 = false → ({ s with app := (s.app.handleKey press).1 } : Explorer).Current) ∧
      ((s.app.handleKey press).2 = true →
        ((s.app.handleKey press).1.loading = false →
          (s.app.handleKey press).1.activeQuery =
            (s.app.handleKey press).1.committed (s.app.handleKey press).1.screen) →
        (({ s with app := (s.app.handleKey press).1, asked := true, requested := s.requested + 1 } :
          Explorer).refresh .interactive).Current) := by
  obtain ⟨⟨hloading, hlocked, hpending, hgeneration⟩, hquiet, hasks⟩ := handleKey_spec s.app press
  constructor
  · intro hnone
    obtain ⟨hview, hsnapshot, hcursors⟩ := hquiet hnone
    exact h.still ⟨hloading, hlocked, hpending, hgeneration⟩ hcursors hview hsnapshot
  · intro hrefresh hbox
    have hready := (hsound.press press).2 hrefresh
    rcases hidle : (s.app.handleKey press).1.loading with _ | _
    · refine .dispatch hidle (hready.idle hidle).1 (hbox hidle) (fun hpaging c hc => ?_) _
      rcases hasks hrefresh with hsame | ⟨-, hpaged⟩
      · exact nomatch (hsame.paging.trans hsound.paging).symm.trans hpaging
      · have hbefore : c ∈ s.app.logCursorStack ∨ s.app.logNextCursor = some c :=
          hc.elim (hpaged.stack c) fun hnext => .inr (hpaged.next.symm.trans hnext)
        obtain ⟨request, hmem, heq⟩ := h.cursors c hbefore
        exact ⟨request, hmem, heq.trans hpaged.view.symm⟩
    · obtain ⟨hstack, hnext, -⟩ := hsound.live hrefresh (hloading.symm.trans hidle)
      refine Explorer.Current.wait (s := { s with
        app := (s.app.handleKey press).1, asked := true, requested := s.requested + 1 }) hidle (fun c hc => ?_)
        h.pages _
      rw [hstack, hnext] at hc
      rcases hc with hc | hc
      · exact absurd hc not_mem_nil
      · exact nomatch hc

theorem Explorer.Current.step (h : s.Current) (hsound : s.Sound) (hbox : Committed s e) (hstep : s.step e = some s') :
    s'.Current := by
  obtain ⟨m, origin, hm, hs'⟩ := step_eq_some.mp hstep
  rcases prepare_cases hm with ⟨press, -, ⟨hrefresh, rfl, rfl⟩ | ⟨hquiet, rfl, rfl⟩⟩ | ⟨-, rfl, rfl⟩ |
    ⟨i, result, f, -, hf, rfl, rfl⟩ | ⟨record, -, hroute, rfl, rfl⟩
  · rcases hs' with ⟨hnone, -⟩ | ⟨o, ho, rfl⟩
    · exact nomatch hnone
    · cases ho
      exact (h.press hsound press).2 hrefresh (hbox _ _ hm)
  · rcases hs' with ⟨-, rfl⟩ | ⟨o, ho, -⟩
    · exact (h.press hsound press).1 hquiet
    · exact nomatch ho
  · rcases hs' with ⟨hnone, -⟩ | ⟨o, ho, rfl⟩
    · exact nomatch hnone
    · cases ho
      rcases hidle : s.app.loading with _ | _
      · exact Explorer.Current.dispatch (s := { s with requested := s.requested + 1 }) hidle (hsound.idle hidle).1
          (hbox _ _ hm hidle) (fun hpaging => nomatch hsound.paging.symm.trans hpaging) _
      · exact Explorer.Current.wait (s := { s with requested := s.requested + 1 }) hidle h.cursors h.pages _
  · rcases hs' with ⟨hnone, rfl⟩ | ⟨o, ho, rfl⟩
    · exact h.answered hsound hf hnone result
    · rw [ho] at hm
      obtain ⟨hload, -, -, hpaging, -, -, -, -⟩ := apply_spec s.app f.1 (answerOf f.1 result)
      refine .dispatch hload (hsound.answer hf).2.2.1 (hbox _ _ hm hload) (fun hpage => ?_) _
      exact nomatch (hpaging.trans hsound.paging).symm.trans hpage
  · rcases hs' with ⟨-, rfl⟩ | ⟨o, ho, -⟩
    · have hview : ({ s.app with route := .traceDetail } : App).view = s.app.view := by
        rw [App.view, App.view, App.screen, App.screen, hroute]
        rfl
      split
      · exact h.still ⟨rfl, rfl, rfl, rfl⟩ ⟨rfl, rfl, rfl⟩ hview rfl
      · exact h.still ⟨rfl, rfl, rfl, rfl⟩ ⟨rfl, rfl, rfl⟩ hview rfl
    · exact nomatch ho

theorem Explorer.Current.init (window : Option (ℤ × ℤ)) : (Explorer.init window).Current :=
  .dispatch rfl rfl rfl (fun h => absurd h Bool.false_ne_true) _

/-! ## The protocol -/

theorem prepare_served {m : Explorer} (h : s.prepare e = some (m, origin)) : m.served = s.served := by
  rcases prepare_cases h with ⟨press, -, ⟨-, -, rfl⟩ | ⟨-, -, rfl⟩⟩ | ⟨-, -, rfl⟩ | ⟨i, result, f, -, -, -, rfl⟩ |
    ⟨record, -, -, -, rfl⟩
  · rfl
  · rfl
  · rfl
  · rfl
  · rfl

/-- A refresh that is served is served by a query that is made from the state then. -/
theorem served_by (hstep : s.step e = some s') (hserved : s'.served ≠ s.served) :
    ∃ f ∈ s'.inFlight, f.1 = s'.app.request := by
  obtain ⟨m, origin, hm, ⟨-, rfl⟩ | ⟨o, -, rfl⟩⟩ := step_eq_some.mp hstep
  · exact absurd (prepare_served hm) hserved
  · rcases hidle : m.app.loading with _ | _
    · rw [refresh_idle hidle]
      exact ⟨_, mem_append_right _ (mem_singleton_self _), rfl⟩
    · rw [refresh_busy hidle] at hserved
      exact absurd (prepare_served hm) hserved

/-- After an answer every refresh so far is served. -/
theorem Explorer.Sound.served (h : s.Sound) {i : ℕ} {result : Except Text (Option ℕ)}
    (hstep : s.step (.complete i result) = some s') : s'.served = s'.requested := by
  obtain ⟨m, origin, hm, hs'⟩ := step_eq_some.mp hstep
  rcases prepare_cases hm with ⟨press, he, -⟩ | ⟨he, -⟩ | ⟨j, result, f, -, hf, rfl, rfl⟩ | ⟨record, he, -⟩
  · exact nomatch he
  · exact nomatch he
  · rcases hs' with ⟨hnone, rfl⟩ | ⟨o, -, rfl⟩
    · exact (h.answer hf).2.2.2.2 hnone
    · rw [refresh_idle (apply_spec s.app f.1 (answerOf f.1 result)).1]
  · exact nomatch he

/-- The refresh protocol, for every run: at most one query is in flight; the keyboard is locked only while a query
that a press asked for is; every refresh is served by a query made from the state then, at the latest when the
query in flight is answered. While queries are sent for committed query texts, the result shown is for the view of
the user whenever nothing is in flight and the last answer was a result, and a query of the Logs has a cursor only
if it was returned for its view. -/
theorem refresh_protocol (window : Option (ℤ × ℤ)) (es : List Event)
    (hrun : run Explorer.step (.init window) es = some s) :
    s.inFlight.length ≤ 1 ∧
      (s.app.inputLocked = true → ∃ f ∈ s.inFlight, f.2 = true) ∧
      ((s.inFlight = [] → s.served = s.requested) ∧
        (∀ i result s', s.step (.complete i result) = some s' → s'.served = s'.requested) ∧
        ∀ e s', s.step e = some s' → s'.served ≠ s.served → ∃ f ∈ s'.inFlight, f.1 = s'.app.request) ∧
      (Guarded Explorer.step Committed (.init window) es →
        (s.inFlight = [] → s.lastOk = true → ∃ request, s.app.snapshot.request = some request ∧
          request.view = s.app.view) ∧
        ∀ f ∈ s.inFlight, f.1.screen = .logs → ∀ c, f.1.after = some c → s.Returned f.1.view c) := by
  have hsound := run_invariant Explorer.Sound (fun _ _ _ h hstep => h.step hstep) (.init window) hrun
  have hidle (hnone : s.inFlight = []) : s.app.loading = false := by
    by_contra hbusy
    obtain ⟨f, hf, -⟩ := hsound.busy (Bool.eq_true_of_not_eq_false hbusy)
    exact nomatch hnone.symm.trans hf
  refine ⟨?_, fun hlock => ?_, ⟨fun hnone => (hsound.idle (hidle hnone)).2.2.2, fun _ _ _ h => hsound.served h,
    fun _ _ h => served_by h⟩, fun hguarded => ?_⟩
  · rcases hloading : s.app.loading with _ | _
    · rw [(hsound.idle hloading).1]
      exact Nat.zero_le 1
    · obtain ⟨f, hf, -⟩ := hsound.busy hloading
      rw [hf]
      exact le_refl 1
  · rcases hloading : s.app.loading with _ | _
    · exact nomatch (hsound.idle hloading).2.2.1.symm.trans hlock
    · obtain ⟨f, hf, -, hasked, -⟩ := hsound.busy hloading
      exact ⟨f, hf ▸ mem_singleton_self f, hasked hlock⟩
  · have hcurrent := (run_induction (fun s => s.Sound ∧ s.Current)
      (fun _ _ _ h hbox hstep => ⟨h.1.step hstep, h.2.step h.1 hbox hstep⟩)
      ⟨.init window, .init window⟩ hguarded hrun).2
    exact ⟨fun hnone => hcurrent.shown (hidle hnone), fun f hf _ => hcurrent.pages f hf⟩

theorem Committed.of_prepare {m : Explorer} (h : s.prepare e = some (m, origin))
    (hbox : m.app.activeQuery = m.app.committed m.app.screen) : Committed s e := by
  intro m' origin' h' _
  rw [h] at h'
  cases h'
  exact hbox

/-- A page of the Logs, and the next. -/
theorem next_page :
    ∃ s, run Explorer.step (.init none) [.complete 0 (.ok none), .key (.switchTo .logs), .complete 0 (.ok (some 50)),
        .key .older] = some s ∧
      ∀ f ∈ s.inFlight, f.1.screen = .logs → ∀ c, f.1.after = some c → s.Returned f.1.view c := by
  have hguarded : Guarded Explorer.step Committed (.init none) [.complete 0 (.ok none), .key (.switchTo .logs),
      .complete 0 (.ok (some 50)), .key .older] :=
    ⟨.of_prepare rfl rfl, .of_prepare rfl rfl, .of_prepare rfl rfl, .of_prepare rfl rfl, trivial⟩
  exact ⟨_, rfl, ((refresh_protocol none _ rfl).2.2.2 hguarded).2⟩

/-- A text that was typed and left with Escape is run, for the next page as well. -/
theorem typed_text_run :
    (∃ s, run Explorer.step (.init none) [.complete 0 (.ok none), .key (.switchTo .logs),
        .complete 0 (.ok (some 50)), .key .edit, .key (.text "x".toList), .key .escape, .key .older] = some s ∧
      ∃ f ∈ s.inFlight, f.1.screen = .logs ∧ f.1.after = some 50 ∧ ¬s.Returned f.1.view 50) ∧
    ∃ s, run Explorer.step (.init none) [.complete 0 (.ok none), .key (.switchTo .logs), .complete 0 (.ok none),
        .key .edit, .key (.text "x".toList), .key .escape, .key .refresh, .complete 0 (.ok none)] = some s ∧
      s.inFlight = [] ∧ s.lastOk = true ∧
      ¬∃ request, s.app.snapshot.request = some request ∧ request.view = s.app.view := by
  refine ⟨⟨_, rfl, _, mem_singleton_self _, rfl, rfl, ?_⟩, _, rfl, rfl, rfl, ?_⟩
  · rintro ⟨request, hmem, hview⟩
    obtain rfl := (Prod.mk.inj (mem_singleton.mp hmem)).2
    exact absurd (congrArg View.query hview) (by decide)
  · rintro ⟨request, hrequest, hview⟩
    obtain rfl := some.inj hrequest
    exact absurd (congrArg View.query hview) (by decide)

end Imbh.Tui.Refreshing

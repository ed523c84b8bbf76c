import FlightController.Control.Envelope
import FlightController.Control.PidRun
import Mathlib.Data.List.Forall2

/-! Runs of the flight controller: any sequence of `fc_update` calls after `fc_setup`.

    The three axes share the throttle stick and the timestamp, and nothing else. Each is a run of
    the PID controller on inputs of its own (`view_exec`), so two runs that agree on these cannot
    be told apart by the axis (`axes_independent`). -/

namespace FC.Fc
open Schemes

/-- The arguments of an `fc_update` call. -/
structure Call where
  rx : RxSample
  angles : ImuAngles ℚ
  si : ImuSi ℚ
  nowUs : UInt32
  deriving DecidableEq, Repr

/-- The static variables: the controller, and the latest return value. -/
structure St where
  fc : Fc
  out : Option (FcOut ℚ)
  deriving DecidableEq, Repr

def step (s : St) (c : Call) : St :=
  let r := fcUpdate s.fc c.rx c.angles c.si c.nowUs
  ⟨r.2, some r.1⟩

/-- The state after `fc_setup` and a list of calls. -/
def exec (mode : FlightMode) (calls : List Call) : St := run step ⟨fcSetup mode, none⟩ calls

/-- The output of an axis. -/
def axisOut (out : FcOut ℚ) : PidAxis → ℚ
  | .pitch => out.pitchOut
  | .roll => out.rollOut
  | .yaw => out.yawOut

/-- The measurement that controls an axis, by flight mode. -/
def measurement (mode : FlightMode) (c : Call) : PidAxis → ℚ
  | .pitch => match mode with
    | .stabilize => c.angles.fusedPitch
    | .acro => c.si.gy
  | .roll => match mode with
    | .stabilize => c.angles.fusedRoll
    | .acro => c.si.gx
  | .yaw => c.si.gz

/-- Two calls with the same input for an axis. -/
structure Agree (mode : FlightMode) (axis : PidAxis) (c c' : Call) : Prop where
  sameStick : stick c.rx axis = stick c'.rx axis
  sameThrottle : c.rx.throttle = c'.rx.throttle
  sameMeasurement : measurement mode c axis = measurement mode c' axis
  sameTime : c.nowUs = c'.nowUs

/-- What an axis shows of the state: its PID, and its latest output. -/
def view (axis : PidAxis) (s : St) : Pid ℚ × Option ℚ :=
  (s.fc.fcGetPid axis, s.out.map (axisOut · axis))

/-- The `pid_update` call of an axis. -/
def pidCall (mode : FlightMode) (axis : PidAxis) (c : Call) : Pid.Call where
  desired := desired mode c.rx axis
  actual := actual mode c.angles c.si axis
  nowUs := c.nowUs
  integrate := integrate c.rx
  itermLimit := itermLimit c.rx.throttle

/-- A PID with its latest output. -/
def pidStep (p : Pid ℚ × Option ℚ) (c : Pid.Call) : Pid ℚ × Option ℚ :=
  (Pid.callStep p.1 c, some (Pid.output p.1 c))

theorem view_step (axis : PidAxis) (s : St) (c : Call) :
    view axis (step s c) = pidStep (view axis s) (pidCall s.fc.mode axis c) := by
  cases axis <;> rfl

/-- An axis is a PID run of its own. -/
theorem view_exec (mode : FlightMode) (axis : PidAxis) (calls : List Call) :
    view axis (exec mode calls) =
      run pidStep ((fcSetup mode).fcGetPid axis, none) (calls.map (pidCall mode axis)) := by
  refine run_map_of_inv step (I := fun s => s.fc.mode = mode) (fun s c hmode => hmode) ?_ rfl calls
  rintro s c rfl
  exact view_step axis s c

/-- The `pid_update` call of an axis has no other input. -/
theorem pidCall_congr {mode : FlightMode} {axis : PidAxis} {c c' : Call}
    (h : Agree mode axis c c') : pidCall mode axis c = pidCall mode axis c' := by
  obtain ⟨hstick, hthrottle, hmeasurement, htime⟩ := h
  have hdesired : desired mode c.rx axis = desired mode c'.rx axis := by
    rw [desired_eq, desired_eq, hstick]
  have hactual : actual mode c.angles c.si axis = actual mode c'.angles c'.si axis := by
    cases axis <;> cases mode <;> simp only [actual, measurement] at hmeasurement ⊢ <;>
      rw [hmeasurement]
  simp only [pidCall, hdesired, hactual, htime, integrate, hthrottle]

/-- After every call, an axis shows the same in two runs that agree on its inputs. -/
theorem axes_independent (mode : FlightMode) (axis : PidAxis) {calls calls' : List Call}
    (h : List.Forall₂ (Agree mode axis) calls calls') (n : ℕ) :
    (exec mode (calls.take n)).out.map (axisOut · axis) =
        (exec mode (calls'.take n)).out.map (axisOut · axis) ∧
      (exec mode (calls.take n)).fc.fcGetPid axis =
        (exec mode (calls'.take n)).fc.fcGetPid axis := by
  have hpid : (calls.take n).map (pidCall mode axis) = (calls'.take n).map (pidCall mode axis) := by
    rw [← List.forall₂_eq_eq_eq, List.forall₂_map_left_iff, List.forall₂_map_right_iff]
    exact (List.forall₂_take n h).imp fun c c' hc => pidCall_congr hc
  have hview : view axis (exec mode (calls.take n)) = view axis (exec mode (calls'.take n)) := by
    rw [view_exec, view_exec, hpid]
  exact ⟨congrArg Prod.snd hview, congrArg Prod.fst hview⟩

/-- Hovering a little nose up. -/
def hover (nowUs : UInt32) : Call where
  rx := ⟨1500, 1550, 1600, 1500, 1500, 1500, 1500, 1500, 1500, 1500, 1500, 1500, 1500, 1500⟩
  angles := ⟨2, 0, 2, 0, 2, 0⟩
  si := ⟨0, 1 / 10, 0, 0, 0, 0⟩
  nowUs := nowUs

/-- The same, rolling and turning. -/
def rolling (nowUs : UInt32) : Call :=
  { hover nowUs with
    rx := { (hover nowUs).rx with roll := 1900, yaw := 1200 }
    angles := { (hover nowUs).angles with fusedRoll := 20, aroll := 20, groll := 20 }
    si := { (hover nowUs).si with gx := 3, gz := -1 } }

/-- The roll does not reach the pitch axis. -/
theorem axes_independent_rolling :
    (exec .stabilize ([hover 1000, hover 2000].take 2)).out.map (axisOut · .pitch) =
        (exec .stabilize ([rolling 1000, rolling 2000].take 2)).out.map (axisOut · .pitch) ∧
      (exec .stabilize ([hover 1000, hover 2000].take 2)).fc.fcGetPid .pitch =
        (exec .stabilize ([rolling 1000, rolling 2000].take 2)).fc.fcGetPid .pitch :=
  axes_independent .stabilize .pitch
    (.cons ⟨rfl, rfl, rfl, rfl⟩ (.cons ⟨rfl, rfl, rfl, rfl⟩ .nil)) 2

end FC.Fc

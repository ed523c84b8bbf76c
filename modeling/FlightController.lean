import FlightController.Schemes.Run
import FlightController.Schemes.Clock
import FlightController.Schemes.Bytes
import FlightController.Schemes.Telescope
import FlightController.Schemes.Blend
import FlightController.Schemes.Spread
import FlightController.Schemes.Window
import FlightController.Schemes.Fair
import FlightController.Schemes.Mean
import FlightController.Schemes.Relate
import FlightController.Rx.Ibus
import FlightController.Rx.Acceptor
import FlightController.Rx.Resync
import FlightController.Rx.Noise
import FlightController.Rx.Usart
import FlightController.Rx.Recv
import FlightController.Control.Util
import FlightController.Control.Pid
import FlightController.Control.PidRun
import FlightController.Control.Fc
import FlightController.Control.Envelope
import FlightController.Control.Axes
import FlightController.Control.Mirror
import FlightController.Control.Response
import FlightController.Control.Authority
import FlightController.Motor.Pwm
import FlightController.Motor.Mixing
import FlightController.Motor.Saturation
import FlightController.Motor.Compare
import FlightController.Motor.Moments
import FlightController.Motor.Output
import FlightController.Main.Loop
import FlightController.Main.Failsafe
import FlightController.Main.Copy
import FlightController.Main.Motors
import FlightController.Main.Integral
import FlightController.Main.Schedule
import FlightController.Main.Board
import FlightController.Main.Fault
import FlightController.Telemetry.Usb
import FlightController.Telemetry.Chunks
import FlightController.Telemetry.Session
import FlightController.Telemetry.Reader
import FlightController.Telemetry.Endpoint
import FlightController.Telemetry.Deadline
import FlightController.Telemetry.Packets
import FlightController.Telemetry.Host
import FlightController.Telemetry.Format
import FlightController.Telemetry.Send
import FlightController.Telemetry.Abort
import FlightController.Telemetry.Stream
import FlightController.Telemetry.Resync
import FlightController.Timer.Wait
import FlightController.Timer.Exact
import FlightController.Imu.Driver
import FlightController.Imu.Elapsed
import FlightController.Imu.Steps
import FlightController.Imu.Ready
import FlightController.Imu.Attitude
import FlightController.Imu.Bias
import FlightController.Imu.Track
import FlightController.Imu.TrueTime
import FlightController.Imu.Decode
import FlightController.Imu.Bus
import FlightController.Imu.Setup
import FlightController.Imu.Return
import FlightController.Imu.Calibrate
import FlightController.Imu.Draws
import FlightController.Imu.Finish

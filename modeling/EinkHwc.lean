import EinkHwc.Trace.System
import EinkHwc.Trace.Past
import EinkHwc.Trace.Progress
import EinkHwc.Trace.Guard
import EinkHwc.Trace.Cached
import EinkHwc.Trace.Descriptors
import EinkHwc.Trace.Grouped
import EinkHwc.Worker.SetMode
import EinkHwc.Worker.EnterA2
import EinkHwc.Worker.Tuning
import EinkHwc.Worker.Progress
import EinkHwc.Worker.Blit
import EinkHwc.Hal.Logo
import EinkHwc.Hal.SkipCount
import EinkHwc.Hal.Device
import EinkHwc.Sys.Calls
import EinkHwc.Sys.Fences
import EinkHwc.Sys.Framebuffers
import EinkHwc.Sys.Panel
import EinkHwc.Sys.Acquire
import EinkHwc.Sys.Buffers
import EinkHwc.Sys.Prepare
import EinkHwc.Sys.Progress
import EinkHwc.Sys.Results
import EinkHwc.Sys.Render
import EinkHwc.Sys.Frames
import EinkHwc.Sys.Contents
import EinkHwc.Sys.Pixels
import EinkHwc.Mem.Partial
import EinkHwc.Mem.LittleEndian
import EinkHwc.Colour.Eink2
import EinkHwc.Colour.Filter
import EinkHwc.Colour.Expand
import EinkHwc.Colour.Rgb565
import EinkHwc.Colour.Partial
import EinkHwc.Colour.Cover
import EinkHwc.Colour.Frame
import EinkHwc.Colour.Screen
import EinkHwc.Dither.Diffusion
import EinkHwc.Dither.Pixel
import EinkHwc.Dither.Row16
import EinkHwc.Dither.Geometry
import EinkHwc.Dither.Screen
import EinkHwc.Dither.Conserve
import EinkHwc.Dither.Bounds16
import EinkHwc.Dither.Packers
import EinkHwc.Dither.Row2
import EinkHwc.Dither.Region
import EinkHwc.Dither.Bounds2
import EinkHwc.Dither.Binary
import EinkHwc.Dither.Picture2
import EinkHwc.Dither.Luma
import EinkHwc.Dither.Shares
import EinkHwc.Dither.Gamma
import EinkHwc.Rects.Separate
import EinkHwc.Sweep.Runs
import EinkHwc.Rects.Events
import EinkHwc.Rects.Section
import EinkHwc.Rects.Started
import EinkHwc.Rects.Sweep
import EinkHwc.Rects.Safe
import EinkHwc.Rects.Partition
import EinkHwc.Rects.Renamed
import EinkHwc.VSync.Worker
import EinkHwc.VSync.Locks
import EinkHwc.VSync.Phase
import EinkHwc.VSync.Stale
import EinkHwc.VSync.Sleep
import EinkHwc.VSync.Progress
import EinkHwc.Gralloc.Metadata
import EinkHwc.Gralloc.Getters
import EinkHwc.Gralloc.PlaneFds

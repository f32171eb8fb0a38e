import DevenvTemplate.FileTree
import DevenvTemplate.StampedTree
import DevenvTemplate.FindCommand
import DevenvTemplate.FindRun
import DevenvTemplate.FindCompletion
import DevenvTemplate.FileName
import DevenvTemplate.Autoprune
import DevenvTemplate.AutopruneFreshness
import DevenvTemplate.Sessions
import DevenvTemplate.NixLib
import DevenvTemplate.FindModules
import DevenvTemplate.MkHook
import DevenvTemplate.Caches
import DevenvTemplate.Ncro
import DevenvTemplate.ByteMemory
import DevenvTemplate.WasiP3
import DevenvTemplate.InnerWords
import DevenvTemplate.SysFill
import DevenvTemplate.RawSyscalls
import DevenvTemplate.ChunkedBackends
import DevenvTemplate.HardwareWords
import DevenvTemplate.Lazy
import DevenvTemplate.KernArand
import DevenvTemplate.Startup
import DevenvTemplate.UseFileBound
import DevenvTemplate.LinuxAndroid

import MyLinuxEnv.Logtrans.Theorems.Format
import MyLinuxEnv.Logtrans.Theorems.MainLoop
import MyLinuxEnv.Logtrans.Theorems.Parse
import MyLinuxEnv.Logviewer.Theorems.Argument
import MyLinuxEnv.Logviewer.Theorems.Colour
import MyLinuxEnv.Logviewer.Theorems.DescFile
import MyLinuxEnv.Logviewer.Theorems.Malformed
import MyLinuxEnv.Logviewer.Theorems.PatternTable
import MyLinuxEnv.Logviewer.Theorems.Safety
import MyLinuxEnv.Memory.Chain
import MyLinuxEnv.Paths.Theorems.Refine
import MyLinuxEnv.Proxy.Changes
import MyLinuxEnv.Proxy.Links
import MyLinuxEnv.Proxy.Packets
import MyLinuxEnv.Proxy.Refines
import MyLinuxEnv.Proxy.Telnet
import MyLinuxEnv.Proxy.Theorems.Accept
import MyLinuxEnv.Proxy.Theorems.Bounds
import MyLinuxEnv.Proxy.Theorems.Broadcast
import MyLinuxEnv.Proxy.Theorems.Clients
import MyLinuxEnv.Proxy.Theorems.Commands
import MyLinuxEnv.Proxy.Theorems.Console
import MyLinuxEnv.Proxy.Theorems.Cuts
import MyLinuxEnv.Proxy.Theorems.Fifo
import MyLinuxEnv.Proxy.Theorems.Frame
import MyLinuxEnv.Proxy.Theorems.Links
import MyLinuxEnv.Proxy.Theorems.Listener
import MyLinuxEnv.Proxy.Theorems.MainLoop
import MyLinuxEnv.Proxy.Theorems.Messages
import MyLinuxEnv.Proxy.Theorems.Packets
import MyLinuxEnv.Proxy.Theorems.Splitter
import MyLinuxEnv.Proxy.Theorems.Stops
import MyLinuxEnv.Proxy.Theorems.Tap
import MyLinuxEnv.Reo.Basic
import MyLinuxEnv.Reo.Theorems.Headers
import MyLinuxEnv.Reo.Theorems.Output
import MyLinuxEnv.Reo.Theorems.Recognition
import MyLinuxEnv.Reo.Theorems.Sources
import MyLinuxEnv.Usb.Theorems.Handles
import MyLinuxEnv.Usb.Theorems.Interfaces
import MyLinuxEnv.Vim.Align
import MyLinuxEnv.Vim.Theorems.Align

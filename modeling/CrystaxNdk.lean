import CrystaxNdk.CrazyLinker.Proof.FailedLoad
import CrystaxNdk.CrazyLinker.Proof.BaseNames
import CrystaxNdk.CrazyLinker.Proof.SharedRelro
import CrystaxNdk.CrazyLinker.Proof.DelayedCallbacks
import CrystaxNdk.CrazyLinker.Proof.TextRelocations
import CrystaxNdk.CrazyLinker.Proof.RelroPages
import CrystaxNdk.CrazyLinker.Proof.InitOrder
import CrystaxNdk.CrazyLinker.Proof.LineReader
import CrystaxNdk.CrazyLinker.Proof.ProcMaps
import CrystaxNdk.CrazyLinker.Proof.SearchOrder
import CrystaxNdk.CrazyLinker.Proof.Wrappers
import CrystaxNdk.CrazyLinker.Proof.Vector
import CrystaxNdk.NdkDepends.Proof.TopologicalSort
import CrystaxNdk.NdkDepends.Proof.BuildGraph
import CrystaxNdk.NdkStack.Proof.Frame
import CrystaxNdk.NdkStack.Proof.Dumps
import CrystaxNdk.Build.Proof.Features
import CrystaxNdk.Build.Proof.RemoveDuplicates
import CrystaxNdk.Build.Proof.ListFile
import CrystaxNdk.Build.Proof.Imports
import CrystaxNdk.Build.Proof.SetupAbi
import CrystaxNdk.NativeAppGlue.Proof.SavedState
import CrystaxNdk.NativeAppGlue.Proof.Progress
import CrystaxNdk.CpuFeatures.Proof.CpuList
import CrystaxNdk.CpuFeatures.Proof.CpuInfo
import CrystaxNdk.Vfs.Proof.FdTop
import CrystaxNdk.Vfs.Proof.DirHandles
import CrystaxNdk.Vfs.Proof.Numbering
import CrystaxNdk.Vfs.Proof.LiveSlots
import CrystaxNdk.Vfs.Proof.Unmount
import CrystaxNdk.Vfs.Proof.SplitJoin
import CrystaxNdk.Vfs.Proof.WorkingDirectory
import CrystaxNdk.Vfs.Proof.Select
import CrystaxNdk.Vfs.Proof.Overlay
import CrystaxNdk.Vfs.Proof.ListT
import CrystaxNdk.Vfs.Proof.AssetPosition
import CrystaxNdk.Vfs.Proof.Rename
import CrystaxNdk.Jutils.Proof.JHolder
import CrystaxNdk.Vfs.Proof.Metadata

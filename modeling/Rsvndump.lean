import Rsvndump.Library.CString
import Rsvndump.Library.FifoCache
import Rsvndump.Library.Replay
import Rsvndump.Library.PathNames
import Rsvndump.Library.PropBlocks
import Rsvndump.Critbit.Tree
import Rsvndump.Critbit.Correctness
import Rsvndump.Critbit.Runs
import Rsvndump.Platform
import Rsvndump.Mukv
import Rsvndump.Obfuscation
import Rsvndump.PathRepo.Listings
import Rsvndump.PathRepo.CopiedTrees
import Rsvndump.PathRepo.Subtrees
import Rsvndump.PathRepo.Store
import Rsvndump.PathRepo.Versions
import Rsvndump.Arguments
import Rsvndump.Delta.Bases
import Rsvndump.Delta.Closing
import Rsvndump.Delta.CopyPropagation
import Rsvndump.Delta.Deletions
import Rsvndump.Delta.EditedTrees
import Rsvndump.Delta.NodeProps
import Rsvndump.Delta.Properties
import Rsvndump.Delta.RootProps
import Rsvndump.Dump.Bases
import Rsvndump.Dump.Checksums
import Rsvndump.Dump.Complete
import Rsvndump.Dump.Copies
import Rsvndump.Dump.EditedTrees
import Rsvndump.Dump.Framing
import Rsvndump.Dump.Full
import Rsvndump.Dump.Indexes
import Rsvndump.Dump.Preparation
import Rsvndump.Dump.PropertyBlocks
import Rsvndump.Dump.UserPrefix
import Rsvndump.Property.Counts
import Rsvndump.Property.Safety
import Rsvndump.Property.Serialized
import Rsvndump.Rhash.Runs
import Rsvndump.Snappy.RoundTrip

import Aesd.Memory
import Aesd.Position
import Aesd.Llseek
import Aesd.Eof
import Aesd.Split
import Aesd.Reader
import Aesd.Concurrent
import Aesd.Linearization
import Aesd.Recovery
import Aesd.Reload
import Aesd.Server.Grammar
import Aesd.Server.Release
import Aesd.Server.Sending
import Aesd.Server.Commit
import Aesd.Server.Isolation
import Aesd.Server.Builds
import Aesd.Server.Descriptors
import Aesd.Server.Shutdown
import Aesd.Server.Startup
import Aesd.Server.Leaving
import Aesd.Server.Draining
import Aesd.Server.Storage
import Aesd.Systemcalls
import Aesd.Threading

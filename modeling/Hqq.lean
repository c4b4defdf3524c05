import Hqq.Listener.Dispatch
import Hqq.Superblock.Join
import Hqq.Advanced.Reported
import Hqq.Negotiation.Agreement
import Hqq.Advanced.Shutdown
import Hqq.Calls.Returns
import Hqq.Streams.Refusals
import Hqq.Negotiation.Interop
import Hqq.Streams.PeerClose
import Hqq.Superblock.Takeover
import Hqq.Listener.Acceptors
import Hqq.Bindgen.Kill
import Hqq.Bindgen.Bodies
import Hqq.Superblock.Attach
import Hqq.Superblock.Heartbeat
import Hqq.Request.Contract
import Hqq.Link.Asleep
import Hqq.Link.Close
import Hqq.Link.OneCompletion
import Hqq.Handles.Guarded
import Hqq.Handles.Owned
import Hqq.Bindgen.Dial
import Hqq.Bindgen.Hello
import Hqq.Calls.Late
import Hqq.Streams.Slots
import Hqq.Superblock.Marks
import Hqq.Bindgen.Pool
import Hqq.Listener.Counters
import Hqq.Ring.ParkGroup
import Hqq.Request.Watch
import Hqq.Listener.Names
import Hqq.Advanced.Response

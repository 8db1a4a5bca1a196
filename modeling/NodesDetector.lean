import NodesDetector.Icmp.Accumulator
import NodesDetector.Icmp.NetworkOrder
import NodesDetector.Icmp.LateReplies
import NodesDetector.Pinger.Locals
import NodesDetector.Pinger.Attribution
import NodesDetector.Pinger.Destination
import NodesDetector.Pinger.Starting
import NodesDetector.Pinger.Stopping
import NodesDetector.Library.Circular
import NodesDetector.Library.Tickets
import NodesDetector.Queue.Program
import NodesDetector.Library.Fifo
import NodesDetector.Queue.Safety
import NodesDetector.Queue.Destructor
import NodesDetector.Library.AtomicQueue
import NodesDetector.Queue.Linearize
import NodesDetector.Queue.ProducerList
import NodesDetector.Queue.Progress
import NodesDetector.Queue.SingleConsumer
import NodesDetector.Queue.OwnSteps
import NodesDetector.Library.Client
import NodesDetector.Pinger.Delivery
import NodesDetector.Library.Exclusive
import NodesDetector.Library.Threads
import NodesDetector.Queue.BlockPoolSafety
import NodesDetector.Queue.Allocation

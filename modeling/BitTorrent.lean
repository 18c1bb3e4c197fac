import BitTorrent.Lib.Run
import BitTorrent.Lib.Sync
import BitTorrent.Lib.Sweep
import BitTorrent.Bencode.MetaInfo
import BitTorrent.Download.Bitfield
import BitTorrent.Download.Calls
import BitTorrent.Download.Picker
import BitTorrent.Download.RoundTrip
import BitTorrent.Download.Bookkeeping
import BitTorrent.Download.Pipeline
import BitTorrent.Download.Inflight
import BitTorrent.Download.Progress
import BitTorrent.Download.Safety
import BitTorrent.Download.FailedSend
import BitTorrent.Download.Discipline
import BitTorrent.Download.Verified
import BitTorrent.Download.Deadlock
import BitTorrent.Download.Complete
import BitTorrent.Bencode.Decoder
import BitTorrent.Bencode.InfoHash
import BitTorrent.File.Write
import BitTorrent.Bencode.Canonical
import BitTorrent.Download.Accepted
import BitTorrent.Download.Batches
import BitTorrent.Download.CheckIsSeed
import BitTorrent.Download.Merge
import BitTorrent.Download.Repeat
import BitTorrent.Tracker.Session
import BitTorrent.Tracker.Retries
import BitTorrent.Tracker.PickTracker
import BitTorrent.File.Split
import BitTorrent.Download.Buffer
import BitTorrent.Download.Windup
import BitTorrent.Bencode.RoundTrip
import BitTorrent.Tracker.Http
import BitTorrent.Tracker.Requests
import BitTorrent.Main
